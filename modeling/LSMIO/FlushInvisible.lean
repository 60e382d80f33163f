import LSMIO.Reopen

namespace LSMIO.State

/-- The ids of the files in no table yet: in the flush's hands, and ready in the pool. -/
def unpublished (s : State) : List Nat := s.hand.ids ++ s.pool.ready

/-- What the counter of the pool provides for: the files handed out are new,
and none of them is already the file of a table. -/
structure Fresh (s : State) : Prop where
  ascending : s.unpublished.Pairwise (· < ·)
  below : ∀ id ∈ s.unpublished, id < s.pool.nextId
  counter : s.pool.nextId < 2 ^ 64
  tables : ∀ index ∈ s.head, ∀ id < 2 ^ 64, index.path = fileName id → id < s.pool.nextId ∧ id ∉ s.unpublished
  written : ∀ m id index, s.hand = .written m id index → index.path = fileName id

/-- What a step does to the files, whatever fails in it. -/
inductive FileMove (s s' : State) : Prop
  | kept (unpublished : s'.unpublished.Sublist s.unpublished) (pool : s'.pool.nextId = s.pool.nextId)
      (head : s'.head = s.head) (written : ∀ m id index, s'.hand = .written m id index → index.path = fileName id)
  | published {m : Memtable} {id : Nat} {index : L0Index} (written : s.hand = .written m id index)
      (hand : s'.hand = .finished) (pool : s'.pool = s.pool) (head : s'.head = index :: s.head)
  | created (unpublished : s'.unpublished = s.unpublished ++ [s.pool.nextId] ∨ s'.unpublished = s.unpublished)
      (pool : s'.pool.nextId = s.pool.nextId + 1) (bound : s.pool.nextId + 1 < 2 ^ 64) (head : s'.head = s.head)
      (hand : s'.hand = s.hand)

theorem Fresh.moved {s s' : State} (fresh : Fresh s) (move : FileMove s s') : Fresh s' := by
  cases move with
  | kept unpublished pool head written =>
    refine ⟨fresh.ascending.sublist unpublished, fun id member => ?_, pool ▸ fresh.counter,
      fun index member id small here => ?_,
      written⟩
    · rw [pool]
      exact fresh.below id (unpublished.subset member)
    · rw [head] at member
      obtain ⟨below, absent⟩ := fresh.tables index member id small here
      exact ⟨pool ▸ below, fun member => absent (unpublished.subset member)⟩
  | @published m id index written hand pool head =>
    have whole : s.unpublished = id :: s'.unpublished := by
      simp [State.unpublished, written, hand, pool, Hand.ids]
    have ascending := fresh.ascending
    rw [whole, List.pairwise_cons] at ascending
    refine ⟨ascending.2, fun other member => ?_, pool ▸ fresh.counter, fun other member id' small here => ?_,
      fun _ _ _ now => ?_⟩
    · rw [pool]
      exact fresh.below other (whole ▸ List.mem_cons_of_mem _ member)
    · rw [head] at member
      rcases List.mem_cons.mp member with rfl | older
      · obtain rfl := fileName_injective (here.symm.trans (fresh.written m id other written))
        refine ⟨pool ▸ fresh.below id' (whole ▸ List.mem_cons_self ..), fun behind => ?_⟩
        exact lt_irrefl id' (ascending.1 id' behind)
      · obtain ⟨below, absent⟩ := fresh.tables other older id' small here
        exact ⟨pool ▸ below, fun behind => absent (whole ▸ List.mem_cons_of_mem _ behind)⟩
    · rw [hand] at now
      cases now
  | created unpublished pool bound head hand =>
    have only : ∀ id ∈ s'.unpublished, id ∈ s.unpublished ∨ id = s.pool.nextId := by
      intro id member
      rcases unpublished with grown | same
      · simpa [grown] using member
      · exact .inl (same ▸ member)
    refine ⟨?_, fun id member => ?_, pool ▸ bound, fun index member id small here => ?_, fun m id index now => ?_⟩
    · rcases unpublished with grown | same
      · rw [grown, List.pairwise_append]
        exact ⟨fresh.ascending, List.pairwise_singleton .., fun id member other last =>
          List.mem_singleton.mp last ▸ fresh.below id member⟩
      · exact same ▸ fresh.ascending
    · rw [pool]
      rcases only id member with old | rfl
      · exact (fresh.below id old).trans (Nat.lt_succ_self _)
      · exact Nat.lt_succ_self _
    · rw [head] at member
      obtain ⟨below, absent⟩ := fresh.tables index member id small here
      refine ⟨pool ▸ below.trans (Nat.lt_succ_self _), fun inside => ?_⟩
      rcases only id inside with old | rfl
      · exact absent old
      · exact lt_irrefl _ below
    · exact fresh.written m id index (hand ▸ now)

/-- A step that moves no file keeps the files. -/
theorem FileMove.of_same {s s' : State} (fresh : Fresh s) (hand : s'.hand = s.hand ∨ s.hand.ids = [] ∧ s'.hand.ids = [])
    (pool : s'.pool = s.pool) (head : s'.head = s.head) : FileMove s s' := by
  refine .kept ?_ (by rw [pool]) head fun m id index now => ?_
  · have ids : s'.hand.ids = s.hand.ids := by
      rcases hand with same | ⟨without, without'⟩
      · rw [same]
      · rw [without, without']
    rw [unpublished, unpublished, ids, pool]
  · rcases hand with same | ⟨-, without⟩
    · exact fresh.written m id index (same ▸ now)
    · rw [now] at without
      cases without

variable {cfg : Config} {s s' : State}

theorem Fresh.pooled {event : PoolEvent} (fresh : Fresh s) (done : PoolStep s event s') : Fresh s' := by
  rcases (FilePool.replenish_cases done.replenished).1 with
    ⟨ready, nextId, -⟩ | ⟨ready, nextId, bound, -, -⟩ | ⟨-, -, ready, nextId, bound, -⟩
  · refine fresh.moved (.kept ?_ nextId done.head fun m id index now => fresh.written m id index (done.hand ▸ now))
    rw [unpublished, unpublished, done.hand, ready]
  · exact fresh.moved (.created (.inl (by simp [unpublished, done.hand, ready])) nextId bound done.head done.hand)
  · exact fresh.moved
      (.created (.inr (by rw [unpublished, unpublished, done.hand, ready])) nextId bound done.head done.hand)

theorem Fresh.effect {e : Event} (fresh : Fresh s) (effect : Effect s e s') : Fresh s' := by
  cases effect with
  | memory done => exact fresh.moved (.of_same fresh done.hand done.pool done.head)
  | acquired silent done =>
    obtain ⟨ready, nextId, -⟩ := FilePool.ready_of_acquire done.front
    refine fresh.moved (.kept ?_ nextId done.head fun m id index now => ?_)
    · simp [unpublished, done.taken, done.hand, Hand.ids, ready]
    · rw [done.hand] at now
      cases now
  | written silent done =>
    refine fresh.moved (.kept ?_ (by rw [done.pool]) done.head fun m id index now => ?_)
    · simp [unpublished, done.acquired, done.hand, Hand.ids, done.pool]
    · rw [done.hand] at now
      cases now
      rfl
  | published silent done => exact fresh.moved (.published done.written done.hand done.pool done.head)
  | pooled same done => exact fresh.pooled done

/-- A flush that fails gives up its file, or leaves it with other bytes. -/
theorem Fresh.failed {event : FlushEvent} (fresh : Fresh s) (done : s.stepFlush event = some s')
    (failed : (Event.flush event).intact = false) : Fresh s' := by
  cases stepFlush_cases done with
  | acquire good taken front =>
    have closed : good = false := failed
    subst closed
    obtain ⟨ready, nextId, -⟩ := FilePool.ready_of_acquire front
    refine fresh.moved (.kept ?_ nextId rfl fun _ _ _ now => (by cases now))
    simp [unpublished, taken, Hand.ids, ready]
  | write fault acquired =>
    refine fresh.moved (.kept ?_ rfl rfl fun m' id' index now => ?_)
    · simp [unpublished, acquired, Hand.ids]
    · cases now
      rfl
  | threw =>
    refine fresh.moved (.kept ?_ rfl rfl fun m id index now => (by cases now))
    simp [unpublished, Hand.ids]
  | _ => cases failed

theorem Fresh.step {e : Event} (fresh : Fresh s) (taken : step cfg s e = some s') : Fresh s' := by
  cases outcome : e.intact with
  | true => exact fresh.effect (step_effect taken outcome)
  | false =>
    cases e with
    | flush event => exact fresh.failed taken outcome
    | _ => cases outcome

/-- A store opened on any directory whose ids leave room for one more hands out fresh files. -/
theorem Fresh.openStore {entries : List (FileName × Bytes)} (room : maxId (foundFiles entries) + 1 < 2 ^ 64)
    (cfg : Config) (dir : Directory) : Fresh (openStore cfg dir entries) := by
  have start : (State.openStore cfg dir entries).pool.nextId = maxId (foundFiles entries) + 1 := by
    simp only [State.openStore, recoverState, FilePool.new]
    omega
  have found : ∀ index ∈ (State.openStore cfg dir entries).head, ∃ file ∈ foundFiles entries,
    index.path = file.2.1 := by
    intro index member
    have listed : index ∈ (recoverState entries).1 := member
    rw [recoverState_fst, List.mem_reverse] at listed
    obtain ⟨file, inFound, rfl⟩ := List.mem_map.mp listed
    exact ⟨file, inFound, rfl⟩
  refine ⟨.nil, fun id member => (by cases member), by rw [start]; exact room, fun index member id small here => ?_,
    fun _ _ _ now => (by cases now)⟩
  obtain ⟨file, inFound, path⟩ := found index member
  refine ⟨?_, List.not_mem_nil⟩
  have listed := (List.mem_insertionSort _).mp inFound
  obtain ⟨entry, -, parsed⟩ := List.mem_filterMap.mp listed
  obtain ⟨number, isId, rfl⟩ := Option.map_eq_some_iff.mp parsed
  have name : entry.1 = fileName id := path.symm.trans here
  rw [name, parseId_fileName small] at isId
  have bound := Files.le_maxId inFound
  simp only [← Option.some.inj isId] at bound
  rw [start]
  omega

/-- In every run, whatever fails, the files handed out are fresh. -/
theorem Fresh.of_run {entries : List (FileName × Bytes)} {dir : Directory} {ok : State → Event → Prop}
    {trace : List Event} (room : maxId (foundFiles entries) + 1 < 2 ^ 64)
    (run : Run (Allowed (State.step cfg) ok) (State.openStore cfg dir entries) trace s) : Fresh s :=
  run.invariant (P := fun _ s => Fresh s) (.openStore room cfg dir) fun _ _ _ _ _ fresh taken => fresh.step taken.2

/-- What a search would find if the memtable in the flush's hands were still in the queue. -/
def answer (s : State) (key : Key) : Option Value := (lastValue s.pending key).or (s.sstableGet key)

theorem get_of_idle (idle : s.hand = .idle) (key : Key) : s.get key = visible (s.answer key) := by
  have pending : s.pending = s.memData := by rw [State.pending, idle]; rfl
  rw [get, answer, memtableGet_eq, pending]

theorem sstableGet_frame (head : s'.head = s.head) (files : ∀ index ∈ s.head, s'.dir[index.path]? = s.dir[index.path]?)
    (key : Key) : s'.sstableGet key = s.sstableGet key := by
  rw [sstableGet, sstableGet, head]
  generalize s.head = tables at files
  induction tables with
  | nil => rfl
  | cons index tables ih =>
    have here := files index (List.mem_cons_self ..)
    rw [SSTableManager.get_cons, SSTableManager.get_cons, ih fun index member =>
      files index (List.mem_cons_of_mem _ member)]
    simp only [SSTableManager.lookup, readValueAt, here]

/-- A flush under way: its file is fresh, and holds its records once they are written. -/
structure Flushing (s : State) : Prop where
  fresh : Fresh s
  short : ∀ entry ∈ s.pending, Short entry
  written : ∀ m id index, s.hand = .written m id index → index = tableOf (fileName id) m.data ∧
    ∃ padding, s.dir[fileName id]? = some (encodeRecords m.data ++ padding)

/-- The steps of a flush move the entries of the memtable from the queue to the
newest table without changing what a search would find. -/
theorem Flushing.step {e : Event} (flushing : Flushing s) (effect : Effect s e s') (silent : e.mutation = none) :
    Flushing s' ∧ ∀ key, s'.answer key = s.answer key := by
  have fresh := flushing.fresh.effect effect
  have others : ∀ id < 2 ^ 64, id ∈ s.unpublished ∨ s.pool.nextId ≤ id →
    ∀ index ∈ s.head, index.path ≠ fileName id := by
    intro id small unused index member here
    obtain ⟨below, absent⟩ := flushing.fresh.tables index member id small here
    rcases unused with inside | past
    · exact absent inside
    · omega
  have small : ∀ id ∈ s.unpublished, id < 2 ^ 64 := fun id member =>
    (flushing.fresh.below id member).trans flushing.fresh.counter
  cases effect with
  | memory done =>
    have pending : s'.pending = s.pending := by rw [done.pending, silent]; simp
    refine ⟨⟨fresh, pending ▸ flushing.short, fun m id index now => ?_⟩, fun key => ?_⟩
    · rcases done.hand with same | ⟨-, without⟩
      · rw [done.dir]
        exact flushing.written m id index (same ▸ now)
      · rw [now] at without
        cases without
    · rw [answer, answer, pending, sstableGet_frame done.head fun _ _ => by rw [done.dir]]
  | acquired _ done =>
    have pending : s'.pending = s.pending := by
      rw [State.pending, State.pending, done.hand, done.taken, done.memory.memData]
      rfl
    refine ⟨⟨fresh, pending ▸ flushing.short, fun m id index now => ?_⟩, fun key => ?_⟩
    · rw [done.hand] at now
      cases now
    · rw [answer, answer, pending, sstableGet_frame done.head fun _ _ => by rw [done.dir]]
  | @written m id _ done =>
    have pending : s'.pending = s.pending := by
      rw [State.pending, State.pending, done.hand, done.acquired, done.memory.memData]
      rfl
    have unused : id ∈ s.unpublished := by simp [unpublished, done.acquired, Hand.ids]
    refine ⟨⟨fresh, pending ▸ flushing.short, fun m' id' index now => ?_⟩, fun key => ?_⟩
    · rw [done.hand] at now
      cases now
      exact ⟨rfl, _, by rw [done.dir, OrderedMap.getElem?_insert, if_pos rfl]⟩
    · rw [answer, answer, pending, sstableGet_frame done.head fun index member => ?_]
      rw [done.dir, OrderedMap.getElem?_insert, if_neg (others id (small id unused) (.inl unused) index member).symm]
  | @published m id index _ done =>
    obtain ⟨isIndex, padding, file⟩ := flushing.written m id index done.written
    have pending : s.pending = m.data ++ s'.pending := by
      simp [State.pending, done.hand, done.written, done.memory.memData, Hand.data]
    have shortTable : ∀ entry ∈ m.data, Short entry :=
      fun entry member => flushing.short entry (by simp [pending, member])
    refine ⟨⟨fresh, fun entry member => flushing.short entry (by simp [pending, member]),
      fun m' id' index' now => ?_⟩, fun key => ?_⟩
    · rw [done.hand] at now
      cases now
    · have table : s'.sstableGet key = (lastValue m.data key).or (s.sstableGet key) := by
        rw [sstableGet, done.head, done.dir, SSTableManager.get_cons, isIndex, lookup_tableOf file shortTable]
        rfl
      rw [answer, answer, pending, lastValue_append, table, Option.or_assoc]
  | @pooled event _ done =>
    have pending : s'.pending = s.pending := by rw [State.pending, State.pending, done.hand, done.memory.memData]
    have files : ∀ name, name ≠ fileName s.pool.nextId → s'.dir[name]? = s.dir[name]? := by
      rcases (FilePool.replenish_cases done.replenished).1 with
        ⟨-, -, same⟩ | ⟨-, -, -, others, -⟩ | ⟨-, -, -, -, -, others⟩
      · exact fun name _ => by rw [same]
      · exact others
      · exact others
    refine ⟨⟨fresh, pending ▸ flushing.short, fun m id index now => ?_⟩, fun key => ?_⟩
    · rw [done.hand] at now
      obtain ⟨isIndex, padding, file⟩ := flushing.written m id index now
      have below := flushing.fresh.below id (by simp [unpublished, now, Hand.ids])
      exact ⟨isIndex, padding, (files _ fun same => below.ne (fileName_injective same)).trans file⟩
    · rw [answer, answer, pending, sstableGet_frame done.head fun index member => ?_]
      exact files _ (others _ flushing.fresh.counter (.inr le_rfl) index member)

/-- Moving the active memtable to the queue, and complete flushes of memtables
at the front of the queue, leave what `get` returns as it was. -/
theorem get_flush_invisible {trace : List Event} (fresh : Fresh s) (short : ∀ entry ∈ s.memData, Short entry)
    (idle : s.hand = .idle) :
    (∀ key, s.rotate.get key = s.get key) ∧
      (Run (Allowed (State.step cfg) fun _ e => e.background = true ∧ e.intact = true) s trace s' → s'.hand = .idle →
        ∀ key, s'.get key = s.get key) := by
  refine ⟨fun key => ?_, fun run idle' key => ?_⟩
  · rw [get, get, memtableGet_eq, memtableGet_eq, memData_rotate]
    rfl
  · have pending : s.pending = s.memData := by rw [State.pending, idle]; rfl
    have flushed := run.invariant (P := fun _ s' => Flushing s' ∧ ∀ key, s'.answer key = s.answer key)
      ⟨⟨fresh, pending ▸ short, fun m id index now => by rw [idle] at now; cases now⟩, fun _ => rfl⟩ (by
        rintro _ middle e next - ⟨flushing, same⟩ ⟨⟨background, intact⟩, taken⟩
        have silent : e.mutation = none := by
          cases e with
          | flush => rfl
          | pool => rfl
          | _ => cases background
        obtain ⟨flushing', same'⟩ := flushing.step (step_effect taken intact) silent
        exact ⟨flushing', fun key => (same' key).trans (same key)⟩)
    rw [get_of_idle idle', get_of_idle idle, flushed.2]

/-- A memtable with two puts of one key and a deletion goes from the queue to a table. -/
theorem get_flush_invisible_once : ∃ s s' : State, s'.get [1] = s.get [1] ∧ s.get [1] = some [8] ∧
    s.head.length = 0 ∧ s'.head.length = 1 := by
  obtain ⟨s, run, short, idle, found, tables, rest⟩ : ∃ s, Run (Allowed (State.step ⟨6, 4, 2, 0⟩) fun _ _ => True)
      (State.openStore ⟨6, 4, 2, 0⟩ ∅ []) [.call 0 (.put [1] [7] false), .ret 0 (.put [1] [7] false) (.bool true),
        .call 0 (.put [1] [8] false), .ret 0 (.put [1] [8] false) (.bool true), .call 0 (.del [2] false),
        .ret 0 (.del [2] false) (.bool true), .pool .check, .pool (.create true true), .pool .insert] s ∧
      (∀ entry ∈ s.memData, Short entry) ∧ s.hand.isIdle = true ∧ s.get [1] = some [8] ∧ s.head.length = 0 ∧
      ([Event.flush .pop, .flush (.acquire true), .flush (.write none), .flush .publish, .flush .finish].foldlM
        (guarded (State.step ⟨6, 4, 2, 0⟩) fun _ e => e.background = true ∧ e.intact = true) s).any
          (fun s' => s'.hand.isIdle = true ∧ s'.head.length = 1) = true := Run.exists_of_any (by decide +kernel)
  obtain ⟨s', flush, idle', tables'⟩ := Run.exists_of_any rest
  have same := (get_flush_invisible (.of_run (by decide +kernel) run) short (Hand.eq_idle idle)).2 flush
    (Hand.eq_idle idle') [1]
  exact ⟨s, s', same, found, tables, tables'⟩

end LSMIO.State
