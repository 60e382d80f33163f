import LSMIO.StoreSteps

namespace LSMIO

/-- The flushes completed since the store was opened, newest first: the id of
the file and the entries written to it. -/
abbrev Flushed := List (Nat × List (Key × Value))

namespace Flushed

def tables (flushed : Flushed) : Tables := flushed.map fun table => (fileName table.1, table.2)

/-- The nodes published for the flushes. -/
def nodes (flushed : Flushed) : List L0Index := flushed.map fun table => tableOf (fileName table.1) table.2

/-- The ids of the files, oldest first. -/
def ids (flushed : Flushed) : List Nat := (flushed.map (·.1)).reverse

def log (flushed : Flushed) : List (Key × Value) := flushed.tables.log

@[simp] theorem ids_nil : ids [] = [] := rfl

@[simp] theorem log_nil : log [] = [] := rfl

@[simp] theorem ids_cons (table : Nat × List (Key × Value)) (older : Flushed) :
    ids (table :: older) = ids older ++ [table.1] := by
  simp [ids]

@[simp] theorem log_cons (table : Nat × List (Key × Value)) (older : Flushed) :
    log (table :: older) = log older ++ table.2 := Tables.log_cons _ _

theorem mem_ids {flushed : Flushed} {table : Nat × List (Key × Value)} (member : table ∈ flushed) :
    table.1 ∈ flushed.ids := List.mem_reverse.mpr (List.mem_map_of_mem member)

/-- The published nodes answer with the last entry flushed, and leave other keys to the tables behind. -/
theorem get_nodes {flushed : Flushed} {dir : Directory} (stored : Stored dir flushed.tables)
    (short : ∀ entry ∈ flushed.log, Short entry) (base : List L0Index) (key : Key) :
    SSTableManager.get (readValueAt dir) (flushed.nodes ++ base) key =
      (lastValue flushed.log key).or (SSTableManager.get (readValueAt dir) base key) := by
  have found := get_tables stored short base key
  rwa [tables, List.map_map] at found

end Flushed

namespace State

/-- The ids of the files created since the store was opened and not lost, in
the order of their creation: of the published files, of the file in the
flush's hands, of the files ready in the pool. -/
def issued (s : State) (flushed : Flushed) : List Nat := flushed.ids ++ s.hand.ids ++ s.pool.ready

/-- What holds after every run in which no flush loses its memtable: each
mutation is in exactly one place, in order, and what is on disk reads back. -/
structure Inv (first : State) (trace : List Event) (s : State) (flushed : Flushed) : Prop where
  head : s.head = flushed.nodes ++ first.head
  log : mutations trace = flushed.log ++ s.pending
  stored : Stored s.dir flushed.tables
  written : ∀ m id index, s.hand = .written m id index → index = tableOf (fileName id) m.data ∧
    ∃ padding, s.dir[fileName id]? = some (encodeRecords m.data ++ padding)
  ascending : (s.issued flushed).Pairwise (· < ·)
  below : ∀ id ∈ s.issued flushed, id < s.pool.nextId

theorem Inv.initial {first : State} (nothing : first.pending = []) (noFile : first.hand = .idle)
    (noReady : first.pool.ready = []) : Inv first [] first [] where
  head := rfl
  log := nothing.symm
  stored := fun table member => by cases member
  written := fun m id index here => by rw [noFile] at here; cases here
  ascending := by simp [issued, noFile, noReady, Hand.ids]
  below := by simp [issued, noFile, noReady, Hand.ids]

theorem openStore_pending (cfg : Config) (dir : Directory) (entries : List (FileName × Bytes)) :
    (openStore cfg dir entries).pending = [] := rfl

/-- Replacing a file that none of the tables uses keeps them stored. -/
theorem stored_of_frame {dir dir' : Directory} {flushed : Flushed} {id : Nat} (stored : Stored dir flushed.tables)
    (unused : id ∉ flushed.ids) (others : ∀ name, name ≠ fileName id → dir'[name]? = dir[name]?) :
    Stored dir' flushed.tables := by
  intro table member
  obtain ⟨source, inFlushed, rfl⟩ := List.mem_map.mp member
  obtain ⟨padding, file⟩ := stored _ member
  have different : fileName source.1 ≠ fileName id := fun same =>
    unused (fileName_injective same ▸ Flushed.mem_ids inFlushed)
  exact ⟨padding, (others _ different).trans file⟩

section Steps

variable {first s s' : State} {trace : List Event} {flushed : Flushed} {e : Event}

/-- A step that leaves every entry in its place keeps the order of the log. -/
theorem Inv.log_kept (inv : Inv first trace s flushed) (silent : e.mutation = none)
    (pending : s'.pending = s.pending) : mutations (trace ++ [e]) = flushed.log ++ s'.pending := by
  rw [mutations_append, mutations_singleton, silent, inv.log, pending]
  simp

theorem Inv.memory (inv : Inv first trace s flushed) (done : MemoryStep s e s') :
    Inv first (trace ++ [e]) s' flushed := by
  have ids : s'.hand.ids = s.hand.ids := by
    rcases done.hand with same | ⟨without, without'⟩
    · rw [same]
    · rw [without, without']
  have issued : s'.issued flushed = s.issued flushed := by rw [State.issued, State.issued, ids, done.pool]
  refine ⟨?_, ?_, ?_, ?_, ?_, ?_⟩
  · rw [done.head, inv.head]
  · rw [mutations_append, mutations_singleton, inv.log, done.pending, List.append_assoc]
  · rw [done.dir]
    exact inv.stored
  · intro m id index here
    rcases done.hand with same | ⟨_, without⟩
    · rw [done.dir]
      exact inv.written m id index (same ▸ here)
    · rw [here] at without
      cases without
  · rw [issued]
    exact inv.ascending
  · rw [issued, done.pool]
    exact inv.below

theorem Inv.acquired {m : Memtable} {id : Nat} (inv : Inv first trace s flushed) (silent : e.mutation = none)
    (done : AcquireStep s m id s') : Inv first (trace ++ [e]) s' flushed := by
  obtain ⟨ready, nextId, -⟩ := FilePool.ready_of_acquire done.front
  have issued : s'.issued flushed = s.issued flushed := by
    simp [State.issued, done.hand, done.taken, Hand.ids, ready]
  have pending : s'.pending = s.pending := by
    rw [State.pending, State.pending, done.hand, done.taken, done.memory.memData]
    rfl
  refine ⟨?_, inv.log_kept silent pending, ?_, ?_, ?_, ?_⟩
  · rw [done.head, inv.head]
  · rw [done.dir]
    exact inv.stored
  · intro m' id' index here
    rw [done.hand] at here
    cases here
  · rw [issued]
    exact inv.ascending
  · rw [issued, nextId]
    exact inv.below

/-- The file being written is not one of the published files, whose ids came before. -/
theorem Inv.unused {m : Memtable} {id : Nat} (inv : Inv first trace s flushed) (acquired : s.hand = .acquired m id) :
    id ∉ flushed.ids := by
  intro member
  have ascending := inv.ascending
  simp only [State.issued, acquired, Hand.ids, List.append_assoc] at ascending
  exact lt_irrefl id ((List.pairwise_append.mp ascending).2.2 id member id (by simp))

theorem Inv.wrote {m : Memtable} {id : Nat} (inv : Inv first trace s flushed) (silent : e.mutation = none)
    (done : WriteStep s m id s') : Inv first (trace ++ [e]) s' flushed := by
  have issued : s'.issued flushed = s.issued flushed := by
    simp [State.issued, done.hand, done.acquired, Hand.ids, done.pool]
  have pending : s'.pending = s.pending := by
    rw [State.pending, State.pending, done.hand, done.acquired, done.memory.memData]
    rfl
  refine ⟨?_, inv.log_kept silent pending, ?_, ?_, ?_, ?_⟩
  · rw [done.head, inv.head]
  · refine stored_of_frame inv.stored (inv.unused done.acquired) fun name different => ?_
    rw [done.dir, OrderedMap.getElem?_insert, if_neg different.symm]
  · intro m' id' index here
    rw [done.hand] at here
    cases here
    exact ⟨rfl, _, by rw [done.dir, OrderedMap.getElem?_insert, if_pos rfl]⟩
  · rw [issued]
    exact inv.ascending
  · rw [issued, done.pool]
    exact inv.below

/-- A publication moves the entries of its file from the flush's hands to the tables. -/
theorem Inv.published {m : Memtable} {id : Nat} {index : L0Index} (inv : Inv first trace s flushed)
    (silent : e.mutation = none) (done : PublishStep s m id index s') :
    Inv first (trace ++ [e]) s' ((id, m.data) :: flushed) := by
  obtain ⟨isIndex, padding, file⟩ := inv.written m id index done.written
  have issued : s'.issued ((id, m.data) :: flushed) = s.issued flushed := by
    simp [State.issued, done.hand, done.written, Hand.ids, done.pool]
  refine ⟨?_, ?_, ?_, ?_, ?_, ?_⟩
  · rw [done.head, inv.head, isIndex]
    rfl
  · rw [inv.log_kept silent rfl, pending, pending, done.hand, done.written, done.memory.memData]
    simp [Hand.data]
  · intro table member
    rw [done.dir]
    rcases List.mem_cons.mp member with rfl | older
    · exact ⟨padding, file⟩
    · exact inv.stored table older
  · intro m' id' index' here
    rw [done.hand] at here
    cases here
  · rw [issued]
    exact inv.ascending
  · rw [issued, done.pool]
    exact inv.below

/-- A file the worker creates is none of those written. -/
theorem Inv.frame (inv : Inv first trace s flushed) (hand : s'.hand = s.hand)
    (others : ∀ name, name ≠ fileName s.pool.nextId → s'.dir[name]? = s.dir[name]?) :
    Stored s'.dir flushed.tables ∧ ∀ m id index, s'.hand = .written m id index →
      index = tableOf (fileName id) m.data ∧
        ∃ padding, s'.dir[fileName id]? = some (encodeRecords m.data ++ padding) := by
  have other : ∀ id ∈ flushed.ids ++ s.hand.ids, id ≠ s.pool.nextId := fun id member =>
    (inv.below id (List.mem_append_left _ member)).ne
  refine ⟨stored_of_frame inv.stored (fun member => other _ (List.mem_append_left _ member) rfl) others, ?_⟩
  intro m id index here
  rw [hand] at here
  obtain ⟨isIndex, padding, file⟩ := inv.written m id index here
  have different : fileName id ≠ fileName s.pool.nextId := fun equal =>
    other id (by simp [here, Hand.ids]) (fileName_injective equal)
  exact ⟨isIndex, padding, (others _ different).trans file⟩

theorem Inv.pooled {event : PoolEvent} (inv : Inv first trace s flushed) (same : e = .pool event)
    (done : PoolStep s event s') : Inv first (trace ++ [e]) s' flushed := by
  have head : s'.head = flushed.nodes ++ first.head := by rw [done.head, inv.head]
  have log : mutations (trace ++ [e]) = flushed.log ++ s'.pending := inv.log_kept (by rw [same]; rfl)
    (by rw [pending, pending, done.hand, done.memory.memData])
  rcases (FilePool.replenish_cases done.replenished).1 with
    ⟨ready, nextId, sameDir⟩ | ⟨ready, nextId, -, others, -⟩ | ⟨-, -, ready, nextId, -, others⟩
  · obtain ⟨stored, written⟩ := inv.frame done.hand fun name _ => by rw [sameDir]
    have issued : s'.issued flushed = s.issued flushed := by rw [State.issued, State.issued, done.hand, ready]
    refine ⟨head, log, stored, written, ?_, ?_⟩
    · rw [issued]
      exact inv.ascending
    · rw [issued, nextId]
      exact inv.below
  · obtain ⟨stored, written⟩ := inv.frame done.hand others
    have issued : s'.issued flushed = s.issued flushed ++ [s.pool.nextId] := by
      simp [State.issued, done.hand, ready]
    refine ⟨head, log, stored, written, ?_, ?_⟩
    · rw [issued, List.pairwise_append]
      exact ⟨inv.ascending, List.pairwise_singleton .., fun id member other last =>
        List.mem_singleton.mp last ▸ inv.below id member⟩
    · rw [issued, nextId]
      intro id member
      rcases List.mem_append.mp member with old | new
      · exact (inv.below id old).trans (Nat.lt_succ_self _)
      · exact List.mem_singleton.mp new ▸ Nat.lt_succ_self _
  · obtain ⟨stored, written⟩ := inv.frame done.hand others
    have issued : s'.issued flushed = s.issued flushed := by rw [State.issued, State.issued, done.hand, ready]
    refine ⟨head, log, stored, written, ?_, ?_⟩
    · rw [issued]
      exact inv.ascending
    · rw [issued, nextId]
      exact fun id member => (inv.below id member).trans (Nat.lt_succ_self _)

theorem Inv.kept (inv : Inv first trace s flushed) (effect : Effect s e s') :
    ∃ flushed', Inv first (trace ++ [e]) s' flushed' := by
  cases effect with
  | memory done => exact ⟨flushed, inv.memory done⟩
  | acquired silent done => exact ⟨flushed, inv.acquired silent done⟩
  | written silent done => exact ⟨flushed, inv.wrote silent done⟩
  | published silent done => exact ⟨_, inv.published silent done⟩
  | pooled same done => exact ⟨flushed, inv.pooled same done⟩

end Steps

/-- The invariant of the store over all runs from any directory. -/
theorem Inv.of_run {cfg : Config} {dir : Directory} {entries : List (FileName × Bytes)} {ok : State → Event → Prop}
    {trace : List Event} {s : State} (intact : ∀ s e, ok s e → e.intact = true)
    (run : Run (Allowed (step cfg) ok) (openStore cfg dir entries) trace s) :
    ∃ flushed, Inv (openStore cfg dir entries) trace s flushed := by
  refine run.invariant (P := fun trace s => ∃ flushed, Inv (openStore cfg dir entries) trace s flushed)
    ⟨[], .initial (openStore_pending ..) rfl rfl⟩ ?_
  rintro trace s e s' - ⟨flushed, inv⟩ ⟨allowed, taken⟩
  exact inv.kept (step_effect taken (intact s e allowed))

theorem mutations_short {cfg : Config} {ok : State → Event → Prop} {first s : State} {trace : List Event}
    (short : ∀ s e, ok s e → ∀ entry ∈ e.mutation, Short entry) (run : Run (Allowed (step cfg) ok) first trace s) :
    ∀ entry ∈ mutations trace, Short entry := by
  refine run.invariant (P := fun trace _ => ∀ entry ∈ mutations trace, Short entry) (by simp) ?_
  rintro trace s e s' - before ⟨allowed, -⟩ entry member
  rw [mutations_append, mutations_singleton, List.mem_append] at member
  rcases member with old | new
  · exact before entry old
  · exact short s e allowed entry (Option.mem_toList.mp new)

/-- The tables written since the opening answer with the last mutation among those flushed. -/
theorem Inv.sstableGet_eq {first s : State} {trace : List Event} {flushed : Flushed}
    (inv : Inv first trace s flushed) (short : ∀ entry ∈ mutations trace, Short entry) (key : Key) :
    s.sstableGet key = (lastValue flushed.log key).or (SSTableManager.get (readValueAt s.dir) first.head key) := by
  have flushedShort : ∀ entry ∈ flushed.log, Short entry := fun entry member =>
    short entry (by rw [inv.log]; exact List.mem_append_left _ member)
  rw [sstableGet, inv.head, Flushed.get_nodes inv.stored flushedShort]

end State

end LSMIO
