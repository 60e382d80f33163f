import LSMIO.PoolThreads

namespace LSMIO.SharedPool

/-- The files made, oldest first: those handed out, those in the pool, and the one not yet inserted. -/
def files (s : SharedPool) : List PoolFile := s.acquired ++ s.pool ++ match s.worker with
  | .created file => [file]
  | _ => []

/-- What holds of the files in every run without a wrap of the counter. The worker
alone inserts, so the room it has seen in its test is still there when it does. -/
structure InOrder (poolSize startId : Nat) (s : SharedPool) : Prop where
  size : s.poolSize = poolSize
  counter : startId ≤ s.nextId.toNat
  ids : ∃ ids : List Nat, s.files.map (·.path) = ids.map fileName ∧ ids.Pairwise (· < ·) ∧
    ∀ id ∈ ids, startId ≤ id ∧ id < s.nextId.toNat
  isOpen : ∀ file ∈ s.files, file.isOpen = true
  bound : s.pool.length ≤ s.poolSize
  room : s.worker ≠ .testing → s.worker ≠ .asleep → s.worker ≠ .returned → s.pool.length < s.poolSize

variable {poolSize startId : Nat} {s s' : SharedPool}

theorem InOrder.start (poolSize : Nat) (startId : UInt64) : InOrder poolSize startId.toNat (start poolSize startId) :=
  ⟨rfl, le_rfl, ⟨[], rfl, .nil, by simp⟩, by simp [files, SharedPool.start], Nat.zero_le _,
    fun testing => absurd rfl testing⟩

/-- A front part of the ids names a front part of the files. -/
theorem InOrder.idsOf (order : InOrder poolSize startId s) {front : List PoolFile} (first : front <+: s.files) :
    ∃ ids : List Nat, front.map (·.path) = ids.map fileName ∧ ids.Pairwise (· < ·) ∧ ∀ id ∈ ids, startId ≤ id ∧
      id < s.nextId.toNat := by
  obtain ⟨back, whole⟩ := first
  obtain ⟨ids, named, ascending, range⟩ := order.ids
  rw [← whole, List.map_append] at named
  obtain ⟨ids₁, ids₂, rfl, here, -⟩ := List.map_eq_append_iff.mp named.symm
  exact ⟨ids₁, here.symm, (List.pairwise_append.mp ascending).1, fun id member =>
    range id (List.mem_append_left _ member)⟩

/-- No file is made, and the counter may move on. -/
theorem InOrder.kept (order : InOrder poolSize startId s) (size : s'.poolSize = s.poolSize)
    (counter : s.nextId.toNat ≤ s'.nextId.toNat) (files : s'.files <+: s.files)
    (bound : s'.pool.length ≤ s.pool.length)
    (room : s'.worker ≠ .testing → s'.worker ≠ .asleep → s'.worker ≠ .returned → s'.pool.length < s.poolSize) :
    InOrder poolSize startId s' := by
  obtain ⟨ids, named, ascending, range⟩ := order.idsOf files
  refine ⟨size.trans order.size, order.counter.trans counter, ⟨ids, named, ascending, fun id member => ?_⟩,
    fun file member => order.isOpen file (files.subset member), ?_, ?_⟩
  · exact ⟨(range id member).1, (range id member).2.trans_le counter⟩
  · rw [size]
    exact bound.trans order.bound
  · rw [size]
    exact room

theorem InOrder.step {e : SharedPoolEvent} (order : InOrder poolSize startId s) (taken : s.step e = some s')
    (noWrap : NoWrap s e) :
    InOrder poolSize startId s' := by
  cases step_cases taken with
  | threads => exact order.kept rfl le_rfl (List.prefix_refl _) le_rfl order.room
  | returned =>
    refine order.kept rfl le_rfl ?_ le_rfl fun _ _ returned => absurd rfl returned
    simp [files]
  | needed testing room =>
    refine order.kept rfl le_rfl ?_ le_rfl fun _ _ _ => room
    simp [files]
  | slept testing =>
    refine order.kept rfl le_rfl ?_ le_rfl fun _ asleep => absurd rfl asleep
    simp [files]
  | created needed =>
    have wider := nextId_succ noWrap
    obtain ⟨ids, named, ascending, range⟩ := order.ids
    have grown : files { s with nextId := s.nextId + 1, worker := .created ⟨fileName s.nextId.toNat, true⟩ } =
        s.files ++ [⟨fileName s.nextId.toNat, true⟩] := by
      simp [files, needed]
    refine ⟨order.size, ?_, ⟨ids ++ [s.nextId.toNat], ?_, ?_, fun id member => ?_⟩, fun file member => ?_,
      order.bound, fun _ _ _ => ?_⟩
    · rw [wider]
      exact Nat.le_succ_of_le order.counter
    · rw [grown, List.map_append, named]
      simp
    · exact List.pairwise_append.mpr ⟨ascending, List.pairwise_singleton .., fun id member last isLast =>
        List.mem_singleton.mp isLast ▸ (range id member).2⟩
    · rw [wider]
      rcases List.mem_append.mp member with before | last
      · exact ⟨(range id before).1, (range id before).2.trans (Nat.lt_succ_self _)⟩
      · rw [List.mem_singleton.mp last]
        exact ⟨order.counter, Nat.lt_succ_self _⟩
    · rw [grown] at member
      rcases List.mem_append.mp member with before | last
      · exact order.isOpen file before
      · rw [List.mem_singleton.mp last]
    · exact order.room (by simp [needed]) (by simp [needed]) (by simp [needed])
  | closed needed =>
    refine order.kept rfl ?_ ?_ le_rfl fun testing => absurd rfl testing
    · rw [nextId_succ noWrap]
      exact Nat.le_succ _
    · simp [files]
  | @inserted woken file calling sleepers made =>
    have same : files
        { s with pool := s.pool ++ [file], worker := .testing, calling := calling, sleepers := sleepers } =
        s.files := by
      simp [files, made]
    have free : s.pool.length < s.poolSize := order.room (by simp [made]) (by simp [made]) (by simp [made])
    refine ⟨order.size, order.counter, same ▸ order.ids, same ▸ order.isOpen, ?_, fun testing => absurd rfl testing⟩
    rw [List.length_append]
    exact free
  | @acquired t file rest calling front =>
    have shorter : rest.length < s.pool.length := by simp [front]
    refine order.kept (by simp) (by simp) ?_ (by simpa using shorter.le) fun _ _ _ => ?_
    · rcases notifyWorker_worker { s with calling := calling, pool := rest, acquired := s.acquired ++ [file] } with
        ⟨same, -⟩ | ⟨testing, -⟩
      · simp [files, same, front]
      · simp [files, testing, front]
    · simpa using shorter.trans_le order.bound
  | woken asleep =>
    refine order.kept rfl le_rfl ?_ le_rfl fun testing => absurd rfl testing
    simp [files]
  | down =>
    rcases notifyWorker_worker { s with shutdown := true } with ⟨same, -⟩ | ⟨testing, -⟩
    · refine order.kept (by simp) (by simp) ?_ (by simp) ?_
      · simp [files, same]
      · rw [same, notifyWorker_pool]
        exact order.room
    · refine order.kept (by simp) (by simp) ?_ (by simp) fun awake => absurd testing awake
      simp [files, testing]

/-- Whatever the two files hold, recovery finds the first before the second and not the other way. -/
def SortsBefore (path path' : FileName) : Prop :=
  ∃ id id', parseId path = some id ∧ parseId path' = some id' ∧ ∀ content content' : Bytes,
    FoundBefore (id, path, content) (id', path', content') ∧ ¬ FoundBefore (id', path', content') (id, path, content)

/-- The pool hands out fresh files in order: in every run, with any file opens
failing, the files handed out carry strictly ascending ids from the start id on,
no path twice; recovery sorts each before the later ones; their streams are
open; and the pool holds at most `poolSize` files. -/
theorem acquired_in_order {poolSize : Nat} {startId : UInt64} {trace : List SharedPoolEvent} {s : SharedPool}
    (run : Run (Allowed step NoWrap) (SharedPool.start poolSize startId) trace s) :
    (∃ ids : List Nat, s.acquired.map (·.path) = ids.map fileName ∧ ids.Pairwise (· < ·) ∧
      ∀ id ∈ ids, startId.toNat ≤ id) ∧
      (s.acquired.map (·.path)).Nodup ∧ (s.acquired.map (·.path)).Pairwise SortsBefore ∧
        (∀ file ∈ s.acquired, file.isOpen = true) ∧
      s.pool.length ≤ poolSize := by
  have order : InOrder poolSize startId.toNat s := run.invariant (P := fun _ s => InOrder poolSize startId.toNat s)
    (.start poolSize startId) fun _ _ _ _ _ order taken => order.step taken.2 taken.1
  have first : s.acquired <+: s.files := ⟨s.pool ++ _, (List.append_assoc ..).symm⟩
  obtain ⟨ids, named, ascending, range⟩ := order.idsOf first
  have parsed : ∀ id ∈ ids, parseId (fileName id) = some id := fun id member =>
    parseId_fileName ((range id member).2.trans s.nextId.toNat_lt)
  refine ⟨⟨ids, named, ascending, fun id member => (range id member).1⟩, ?_, ?_,
    fun file member => order.isOpen file (first.subset member), order.size ▸ order.bound⟩
  · rw [named]
    exact List.Nodup.map fileName_injective (ascending.imp fun less => less.ne)
  · rw [named, List.pairwise_map]
    refine ascending.imp_of_mem fun {id id'} member member' less => ?_
    refine ⟨id, id', parsed id member, parsed id' member', fun content content' => ⟨.inl less, ?_⟩⟩
    rintro (more | ⟨same, -⟩)
    · exact absurd less more.asymm
    · exact less.ne same.symm

/-- Two threads and a first open that fails: the second and the third file are handed out. -/
theorem acquired_in_order_two : ∃ s, Run (Allowed step NoWrap) (SharedPool.start 2 999999)
    [.test, .create false, .call 0, .acquire 0, .call 1, .test, .create true, .insert (some 0), .acquire 1,
      .acquire 0, .test, .create true, .insert (some 0), .acquire 0] s ∧
    s.acquired.map (·.path) = [fileName 1000000, fileName 1000001] ∧ (s.acquired.map (·.path)).Pairwise SortsBefore ∧
      s.pool.length ≤ 2 := by
  obtain ⟨s, run, handed⟩ : ∃ s, Run (Allowed step NoWrap) (SharedPool.start 2 999999)
      [.test, .create false, .call 0, .acquire 0, .call 1, .test, .create true, .insert (some 0), .acquire 1,
        .acquire 0, .test, .create true, .insert (some 0), .acquire 0] s ∧
        s.acquired.map (·.path) = [fileName 1000000, fileName 1000001] :=
    Run.exists_of_any (by decide +kernel)
  obtain ⟨-, -, sorted, -, bound⟩ := acquired_in_order run
  exact ⟨s, run, handed, sorted, bound⟩

end LSMIO.SharedPool
