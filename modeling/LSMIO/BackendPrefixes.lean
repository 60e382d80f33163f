import LSMIO.MetadataListing
import LSMIO.PrefixScan
import LSMIO.ReadYourWrites
import LSMIO.RemoteBarrier
import LSMIO.WriteBarrier

namespace LSMIO

open LSMIOStore (metaPrefix)

/-- The calls that write. -/
inductive WriteCall
  | put (key : Key) (value : Value) (flush : Bool)
  | del (key : Key) (flush : Bool)
  | metaPut (key : Key) (value : Value) (flush : Bool)
  deriving DecidableEq

namespace WriteCall

/-- The call made on a store. -/
def perform {σ : Type*} (store : LSMIOStore σ) (s : σ) : WriteCall → Bool × σ
  | .put key value flush => store.put s key value flush
  | .del key flush => store.del s key flush
  | .metaPut key value flush => store.metaPut s key value flush

/-- The call as the native store takes it. -/
def native : WriteCall → Call
  | .put key value flush => .put key value flush
  | .del key flush => .del key flush
  | .metaPut key value flush => .put (metaPrefix ++ key) value flush

/-- The call as `_batchMutation` of LevelDB takes it. -/
def mutation : WriteCall → Mutation
  | .put key value _ => .put key value
  | .del key _ => .del key
  | .metaPut key value _ => .put (metaPrefix ++ key) value

def flush : WriteCall → Bool
  | .put _ _ flush | .del _ flush | .metaPut _ _ flush => flush

/-- The entries that the native store keeps of the calls. -/
def entries (calls : List WriteCall) : List (Key × Value) := calls.filterMap fun c => c.native.mutation

/-- The last of the calls on the key puts a value there. -/
def Live (calls : List WriteCall) (key : Key) : Prop :=
  ∃ value, lastOutcome (calls.map mutation) key = some (some value)

/-- What a reader of the native store sees of the calls is what LevelDB keeps of them. -/
theorem visible_lastValue_entries {calls : List WriteCall} (plain : ∀ c ∈ calls, c.native.Plain) (key : Key) :
    visible (lastValue (entries calls) key) = (lastOutcome (calls.map mutation) key).bind id := by
  unfold entries lastOutcome
  induction calls using List.reverseRecOn with
  | nil => rfl
  | append_singleton calls c ih =>
    have before := ih fun c member => plain c (List.mem_append_left _ member)
    have last := plain c (List.mem_append_right _ (List.mem_singleton_self c))
    have split : ∀ k value, c.native.mutation = some (k, value) → c.mutation.key = k →
        visible (some value) = c.mutation.outcome →
        visible (lastValue ((calls ++ [c]).filterMap fun c => c.native.mutation) key) =
          (lastValue (((calls ++ [c]).map mutation).map fun m => (m.key, m.outcome)) key).bind id := by
      intro k value stored sameKey shown
      rw [List.filterMap_snoc, stored, Option.toList_some, lastValue_concat, List.map_append, List.map_append,
        List.map_singleton, List.map_singleton, lastValue_concat, sameKey]
      split
      · simpa using shown
      · exact before
    cases c with
    | put k value flush => exact split k value rfl rfl (last.visible_eq rfl)
    | del k flush => exact split k MEMTABLE_TOMBSTONE rfl rfl (last.visible_eq rfl)
    | metaPut k value flush => exact split (metaPrefix ++ k) value rfl rfl (last.visible_eq rfl)

end WriteCall

namespace StoreLDB

/-- The store after the calls and a barrier. -/
def written (s : StoreLDB) (calls : List WriteCall) : StoreLDB :=
  (store.writeBarrier (calls.foldl (fun s c => (c.perform store s).2) s)).2

variable {first s : StoreLDB}

theorem snd_perform (s : StoreLDB) (c : WriteCall) :
    (c.perform store s).2 = (s.batchMutation c.mutation c.flush true true).2 := by
  cases c <;> rfl

theorem batched_calls (empty : first.batch = none) (calls : List WriteCall) :
    ∃ trace applied, Batched first trace (calls.foldl (fun s c => (c.perform store s).2) first) applied ∧
      ldbMutations trace = calls.map WriteCall.mutation := by
  induction calls using List.reverseRecOn with
  | nil => exact ⟨[], [], ⟨rfl, by simp [pending, empty, ldbMutations]⟩, rfl⟩
  | append_singleton calls c ih =>
    obtain ⟨trace, applied, batched, same⟩ := ih
    rw [List.foldl_append, List.foldl_cons, List.foldl_nil, snd_perform, List.map_append, ← same]
    exact batched.mutation_ok c.mutation c.flush

/-- After the barrier the database has all mutations of the calls. -/
theorem db_written (empty : first.batch = none) (calls : List WriteCall) :
    (first.written calls).db = applyAll first.db (calls.map WriteCall.mutation) := by
  obtain ⟨trace, applied, batched, same⟩ := batched_calls empty calls
  have drained := @Batched.stopBatch _ _ _ _ true batched fun _ => rfl
  exact drained.db.trans (congrArg _ same)

/-- The iterator meets all entries with the prefix: what it lists is what a filter of the whole database does. -/
theorem getPrefix_eq (s : StoreLDB) (prefixKey : Key) :
    s.getPrefix prefixKey = (true, s.db.toList.filter fun entry => prefixKey <+: entry.1) := by
  have ascending : s.db.toList.Pairwise fun a b => compare a.1 b.1 = .lt := Std.ExtTreeMap.ordered_keys_toList
  refine congrArg (Prod.mk true) (OrderedMap.eq_of_ascending ?_ (ascending.filter _) fun entry => ?_)
  · exact (ascending.sublist (List.dropWhile_sublist _)).sublist (List.takeWhile_sublist _)
  · rw [List.mem_prefixRange ascending, List.mem_filter, decide_eq_true_eq]

theorem mem_getPrefix_iff (s : StoreLDB) (prefixKey key : Key) (value : Value) :
    (key, value) ∈ (s.getPrefix prefixKey).2 ↔ prefixKey <+: key ∧ s.get key = some value := by
  rw [getPrefix_eq, List.mem_filter, Std.ExtTreeMap.mem_toList_iff_getElem?_eq_some, decide_eq_true_eq, and_comm]
  rfl

theorem getPrefix_ascending (s : StoreLDB) (prefixKey : Key) :
    (s.getPrefix prefixKey).2.Pairwise fun a b => compare a.1 b.1 = .lt := by
  rw [getPrefix_eq]
  exact Std.ExtTreeMap.ordered_keys_toList.filter _

theorem metaGetAll_store (s : StoreLDB) (inFix : Bytes) :
    store.metaGetAll s inFix = s.getPrefix (metaPrefix ++ inFix) :=
  (s.getPrefix_eq _).symm

end StoreLDB

namespace State

/-- The virtual table of `LSMIOStoreNative`. Its writes can wait for the flush
thread; a reader only needs the two reads, so any others may stand there. -/
def store (others : LSMIOStore State) : LSMIOStore State :=
  { others with get := get, getPrefix := fun s key => (s.getPrefix key).swap }

theorem metaGetAll_store (others : LSMIOStore State) (s : State) (inFix : Bytes) :
    (store others).metaGetAll s inFix = (s.getPrefix (metaPrefix ++ inFix)).swap := rfl

/-- The state of a new store when a barrier returns that began after the calls, in
a run in which no I/O fails and nothing else is written. -/
def Written (cfg : Config) (calls : List WriteCall) (s : State) : Prop :=
  ∃ (before during : List Event) (t : Tid) (r : Result),
    Run (Allowed (step cfg) fun _ e => e.intact = true) (openStore cfg ∅ [])
      (before ++ [.call t .writeBarrier] ++ during ++ [.ret t .writeBarrier r]) s ∧
    mutations before = WriteCall.entries calls ∧ mutations during = []

variable {cfg : Config} {calls : List WriteCall} {s : State}

/-- The barrier leaves nothing in the memtables: the tables answer with the last of the calls. -/
theorem Written.quiet (written : s.Written cfg calls) (short : ∀ entry ∈ WriteCall.entries calls, Short entry)
    (key : Key) :
    s.oldestMemtableGet key = none ∧ s.sstableGet key = lastValue (WriteCall.entries calls) key := by
  obtain ⟨before, during, t, r, run, wrote, alone⟩ := written
  obtain ⟨flushed, inv, covers, inOrder⟩ := barrier_log (fun _ _ intact => intact) run
  have all : mutations (before ++ [.call t .writeBarrier] ++ during ++ [.ret t .writeBarrier r]) =
      WriteCall.entries calls := by
    simp only [mutations_append, mutations_singleton, wrote, alone, Event.mutation, Call.mutation, Option.toList_none,
      List.append_nil]
  rw [mutations_append, alone, List.append_nil] at inOrder
  have log : flushed.log = WriteCall.entries calls := wrote ▸ inOrder.eq_of_length_le covers.length_le
  have nothing : s.pending = [] := by
    have sides := inv.log
    rw [all, log] at sides
    exact List.append_right_eq_self.mp sides.symm
  have absent : s.memtableGet key = none := by
    rw [memtableGet_eq, (List.append_eq_nil_iff.mp nothing).2, lastValue_nil]
  refine ⟨?_, ?_⟩
  · rw [← Option.isNone_iff_eq_none, ← Option.not_isSome, oldestMemtableGet_isSome, absent]
    rfl
  · rw [inv.sstableGet_eq (all ▸ short), log]
    exact Option.or_none

/-- What the native store lists: the live keys with the prefix and their values. -/
theorem Written.mem_getPrefix_iff (written : s.Written cfg calls) (plain : ∀ c ∈ calls, c.native.Plain)
    (prefixKey key : Key) (value : Value) : (key, value) ∈ (s.getPrefix prefixKey).1 ↔
      prefixKey <+: key ∧ lastOutcome (calls.map WriteCall.mutation) key = some (some value) := by
  have short : ∀ entry ∈ WriteCall.entries calls, Short entry := by
    intro entry member
    obtain ⟨c, called, stored⟩ := List.mem_filterMap.mp member
    exact (plain c called).short stored
  obtain ⟨inMemory, inTables⟩ := written.quiet short key
  rw [State.mem_getPrefix_iff, inMemory, inTables, Option.none_or, WriteCall.visible_lastValue_entries plain]
  simp only [Option.bind_eq_some_iff, id, exists_eq_right]

end State

section Backends

variable {cfg : Config} {maxBatchSize maxBatchBytes : Int} {calls : List WriteCall} {s : State}

/-- Both stores list the same pairs in the same order. -/
theorem State.Written.pairs_eq (written : s.Written cfg calls) (plain : ∀ c ∈ calls, c.native.Plain) (prefixKey : Key) :
    (s.getPrefix prefixKey).1 =
      (((StoreLDB.openStore maxBatchSize maxBatchBytes ∅).written calls).getPrefix prefixKey).2 := by
  refine OrderedMap.eq_of_ascending (s.getPrefix_ascending _) (StoreLDB.getPrefix_ascending _ _) fun entry => ?_
  obtain ⟨key, value⟩ := entry
  rw [written.mem_getPrefix_iff plain, StoreLDB.mem_getPrefix_iff, StoreLDB.get, StoreLDB.db_written rfl,
    getElem?_applyAll]
  cases lastOutcome (calls.map WriteCall.mutation) key with
  | none => simp [StoreLDB.openStore]
  | some outcome => simp

/-- The flags agree where something is listed: LevelDB returns the status of its iterator. -/
theorem State.Written.swap_eq_iff (written : s.Written cfg calls) (plain : ∀ c ∈ calls, c.native.Plain)
    (prefixKey : Key) :
    (s.getPrefix prefixKey).swap =
        ((StoreLDB.openStore maxBatchSize maxBatchBytes ∅).written calls).getPrefix prefixKey ↔
      ∃ key, prefixKey <+: key ∧ WriteCall.Live calls key := by
  have listed : (s.getPrefix prefixKey).1 ≠ [] ↔ ∃ key, prefixKey <+: key ∧ WriteCall.Live calls key := by
    rw [← List.isEmpty_eq_false_iff, List.isEmpty_eq_false_iff_exists_mem, Prod.exists]
    refine exists_congr fun key => ?_
    rw [WriteCall.Live, ← exists_and_left]
    exact exists_congr fun value => written.mem_getPrefix_iff plain prefixKey key value
  rw [← listed, ← s.getPrefix_flag, Prod.ext_iff]
  exact and_iff_left (written.pairs_eq plain prefixKey)

/-- After the same calls and a barrier a scan of a prefix gives the same pairs in the
same order under either store, and the same flag exactly when a live key has the
prefix. A manager passes on the flag of its own store, and not that of another rank. -/
theorem backends_agree_iff (plain : ∀ c ∈ calls, c.native.Plain) (written : s.Written cfg calls)
    (prefixKey inFix : Bytes) (others : LSMIOStore State) (alwaysFlush : Bool) (m : LSMIOManager)
    (values : List (Key × Value)) :
    (s.getPrefix prefixKey).1 =
        (((StoreLDB.openStore maxBatchSize maxBatchBytes ∅).written calls).getPrefix prefixKey).2 ∧
      ((s.getPrefix prefixKey).swap =
          ((StoreLDB.openStore maxBatchSize maxBatchBytes ∅).written calls).getPrefix prefixKey ↔
        ∃ key, prefixKey <+: key ∧ WriteCall.Live calls key) ∧
      (m.metaGetAll (State.store others) alwaysFlush s values inFix =
          m.metaGetAll StoreLDB.store alwaysFlush ((StoreLDB.openStore maxBatchSize maxBatchBytes ∅).written calls)
            values inFix ↔
        m.isOpenRemote = true ∨ ∃ key, metaPrefix ++ inFix <+: key ∧ WriteCall.Live calls key) := by
  refine ⟨written.pairs_eq plain prefixKey, written.swap_eq_iff plain prefixKey, ?_⟩
  cases opened : m.isOpenLocal with
  | false =>
    have remote := LSMIOManager.isOpenRemote_of_not_local opened
    have listed : m.listedFor (State.store others) s =
        m.listedFor StoreLDB.store ((StoreLDB.openStore maxBatchSize maxBatchBytes ∅).written calls) := by
      rw [LSMIOManager.listedFor, LSMIOManager.listedFor, StoreLDB.metaGetAll_store]
      exact written.pairs_eq plain _
    rw [LSMIOManager.metaGetAll_remote remote, LSMIOManager.metaGetAll_remote remote, listed]
    simp only [remote, true_or]
  | true =>
    have remote : ¬ m.isOpenRemote = true := fun remote =>
      Bool.noConfusion ((LSMIOManager.isOpenLocal_of_remote remote).symm.trans opened)
    rw [LSMIOManager.metaGetAll_local opened, LSMIOManager.metaGetAll_local opened, or_iff_right remote,
      ← @State.Written.swap_eq_iff cfg maxBatchSize maxBatchBytes _ _ written plain, State.metaGetAll_store,
      StoreLDB.metaGetAll_store, Option.some.injEq, Prod.ext_iff, Prod.ext_iff]
    exact and_congr_right fun _ => List.append_right_inj values

theorem backends_agree_one : ∃ s, (State.getPrefix s [1]).swap =
    ((StoreLDB.openStore 512 1024 ∅).written [.put [1] [7] false]).getPrefix [1] := by
  obtain ⟨s, run⟩ := State.exists_published [7]
  let reads : LSMIOStore State :=
    ⟨State.get, fun s key => (s.getPrefix key).swap, fun s _ _ _ _ => (true, s), fun s => (true, s), fun s => (true, s)⟩
  exact ⟨s, (backends_agree_iff (by decide) ⟨_, _, _, _, run, rfl, rfl⟩ [1] [] reads true ⟨true, 1, 2⟩ []).2.1.mpr
    ⟨[1], List.prefix_refl _, [7], rfl⟩⟩

/-- In a new store nothing has the prefix, and the flags differ. -/
theorem not_backends_agree : ¬ ∀ (cfg : Config) (maxBatchSize maxBatchBytes : Int) (calls : List WriteCall) (s : State),
    (∀ c ∈ calls, c.native.Plain) → s.Written cfg calls → ∀ prefixKey, (s.getPrefix prefixKey).swap =
      ((StoreLDB.openStore maxBatchSize maxBatchBytes ∅).written calls).getPrefix prefixKey := by
  intro always
  obtain ⟨s, run⟩ := Option.isSome_iff_exists.mp (show (List.foldlM
      (guarded (State.step ⟨100, 4, 2, 0⟩) fun _ e => e.intact = true) (State.openStore ⟨100, 4, 2, 0⟩ ∅ [])
      ([] ++ [.call 0 .writeBarrier] ++ [.pushed 0] ++ [.ret 0 .writeBarrier (.bool true)])).isSome = true from rfl)
  have written : s.Written ⟨100, 4, 2, 0⟩ [] := ⟨_, _, _, _, .of_foldlM run, rfl, rfl⟩
  have same := always _ 512 1024 [] s (by simp) written (ascii "x")
  obtain ⟨key, -, value, live⟩ := (written.swap_eq_iff (by simp) (ascii "x")).mp same
  cases live

end Backends

end LSMIO
