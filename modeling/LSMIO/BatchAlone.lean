import LSMIO.BatchDraining

namespace LSMIO

/-- The thread that takes the step. -/
def LDBStep.thread {Thread : Type*} : LDBStep Thread → Thread
  | .call t _ | .run t | .append t _ _ => t

namespace SharedLDB

variable {Thread : Type*}

/-- The store as a caller sees it between two calls; `db` is what LevelDB held at the start. -/
def view (db : Db) (s : SharedLDB Thread) : StoreLDB :=
  { maxBatchSize := s.maxBatchSize
    maxBatchBytes := s.maxBatchBytes
    db := applyAll db (s.db.flatMap DbWrite.mutations)
    batch := (s.batchAt s.batch).map fun n => s.batches[n]?.getD []
    batchSize := s.batchSize
    batchBytes := s.batchBytes }

variable {s s' s'' : SharedLDB Thread} {t : Thread} {after : AfterStop} {db : Db}

theorem Staged.batchAt_batch {stage : Nat → Stage Thread} (staged : Staged s stage) (begun : s.batch.isSome) :
    ∃ n, s.batchAt s.batch = some n ∧ n < s.batches.length := by
  obtain ⟨address, same⟩ := Option.isSome_iff_exists.mp begun
  obtain ⟨n, leads, last, -⟩ := staged.current address same
  exact ⟨n, batchAt_eq_some.mpr ⟨address, same, leads⟩, by omega⟩

theorem view_batch_isSome {stage : Nat → Stage Thread} (staged : Staged s stage) :
    (s.view db).batch.isSome = s.batch.isSome := by
  cases begun : s.batch.isSome with
  | true =>
    obtain ⟨n, leads, -⟩ := staged.batchAt_batch begun
    simp [view, leads]
  | false =>
    have empty : s.batch = none := by simpa using begun
    simp [view, batchAt, empty]

variable [DecidableEq Thread] {trace : List (LDBStep Thread)} {e : LDBStep Thread}

/-- Thread `t` goes from one state to the next with no step of another thread between. -/
def Alone (t : Thread) (s s' : SharedLDB Thread) : Prop :=
  ∃ trace, (∀ e ∈ trace, e.thread = t) ∧ Run (Allowed SharedLDB.step fun _ _ => True) s trace s'

theorem Alone.refl : Alone t s s := ⟨[], by simp, .start⟩

theorem Alone.step (alone : Alone t s s') (mine : e.thread = t) (taken : s'.step e = some s'') : Alone t s s'' := by
  obtain ⟨trace, all, run⟩ := alone
  refine ⟨trace ++ [e], fun e' member => ?_, run.step ⟨trivial, taken⟩⟩
  rcases List.mem_append.mp member with older | newest
  · exact all e' older
  · rw [List.mem_singleton.mp newest, mine]

theorem Alone.trans (front : Alone t s s') (back : Alone t s' s'') : Alone t s s'' := by
  obtain ⟨earlier, all, run⟩ := front
  obtain ⟨later, all', run'⟩ := back
  refine ⟨earlier ++ later, fun e member => ?_, run.append run'⟩
  rcases List.mem_append.mp member with old | new
  · exact all e old
  · exact all' e new

/-- `stopBatch` without interruption. -/
theorem Staged.stopBatch_alone {stage : Nat → Stage Thread} (db : Db) (staged : Staged s stage)
    (pc : s.pcs t = .capture after) :
    ∃ s', Alone t s s' ∧ s'.pcs = Function.update s.pcs t after.pc ∧ s'.view db = ((s.view db).stopBatch true).2 ∧
      s'.heap = s.heap ∧ s'.batches = s.batches ∧ s.freed <+: s'.freed ∧ s'.batch = none := by
  have captured : s.step (.run t) = some (s.setPc t (.lock after s.batch)) := by
    simp only [SharedLDB.step, stepRun, pc]
  have start : Alone t s (s.setPc t (.lock after s.batch)) := Alone.refl.step rfl captured
  cases begun : s.batch.isSome with
  | false =>
    have empty : s.batch = none := by simpa using begun
    refine ⟨(s.setPc t (.lock after s.batch)).setPc t after.pc, start.step (e := .run t) rfl ?_, ?_, ?_, rfl, rfl,
      List.prefix_refl _, empty⟩
    · simp [SharedLDB.step, stepRun, setPc, empty]
    · simp [setPc]
    · simp [setPc, view, batchAt, empty, StoreLDB.stopBatch]
  | true =>
    obtain ⟨n, leads, bound⟩ := staged.batchAt_batch begun
    have empty : s.batch.isNone = false := by simpa using begun
    have found : s.batch.bind s.heap = some n := leads
    generalize contents : s.batches[n]?.getD [] = ms
    have locked : Alone t s
      ({ s with batch := none, batchSize := 0, batchBytes := 0 }.setPc t (.write after s.batch)) :=
      start.step (e := .run t) rfl (by simp [SharedLDB.step, stepRun, setPc, empty])
    have written : Alone t s ({ s with batch := none
                                       batchSize := 0
                                       batchBytes := 0
                                       db := s.db ++ [DbWrite.batch n ms] }.setPc t (.delete after s.batch)) :=
      locked.step (e := .run t) rfl (by simp [SharedLDB.step, stepRun, setPc, writeBatch, batchAt, found, contents])
    have deleted : Alone t s ({ s with batch := none
                                       batchSize := 0
                                       batchBytes := 0
                                       db := s.db ++ [DbWrite.batch n ms]
                                       freed := s.freed ++ [n] }.setPc t after.pc) :=
      written.step (e := .run t) rfl (by simp [SharedLDB.step, stepRun, setPc, deleteBatch, batchAt, found])
    refine ⟨_, deleted, rfl, ?_, rfl, rfl, List.prefix_append .., rfl⟩
    simp [setPc, view, batchAt, found, StoreLDB.stopBatch, contents, DbWrite.mutations, applyAll]

theorem setPc_setPc (s : SharedLDB Thread) (t : Thread) (pc pc' : LDBPc) :
    (s.setPc t pc).setPc t pc' = s.setPc t pc' := by
  simp [setPc]

theorem Alone.run {pc pc' : LDBPc} (alone : Alone t s (s'.setPc t pc))
    (taken : (s'.setPc t pc).stepRun t = some ((s'.setPc t pc).setPc t pc')) : Alone t s (s'.setPc t pc') := by
  rw [← setPc_setPc s' t pc pc']
  exact alone.step (e := .run t) rfl taken

/-- The test for a batch and what it leads to, without interruption. -/
theorem Staged.test_alone {stage : Nat → Stage Thread} (after : AfterStop) (full : Bool) (db : Db)
    (staged : Staged s stage) (idle : s.pcs t = .idle) :
    ∃ s', Alone t (s.setPc t (.test after full)) s' ∧ s'.pcs = Function.update s.pcs t after.pc ∧
      s'.view db = (if (s.view db).batch.isSome ∧ full then ((s.view db).stopBatch true).2 else s.view db) ∧
      s'.heap = s.heap ∧ s'.batches = s.batches ∧ s.freed <+: s'.freed ∧
      s'.batch = (if s.batch.isSome ∧ full then none else s.batch) := by
  rw [view_batch_isSome staged]
  by_cases drains : s.batch.isSome ∧ full
  · have tested : Alone t (s.setPc t (.test after full)) (s.setPc t (.capture after)) :=
      Alone.refl.run (by simp [stepRun, setPc, drains])
    have staged' : Staged (s.setPc t (.capture after)) stage :=
      staged.same (.of_pc (by rw [idle]; rfl) rfl rfl rfl rfl rfl rfl rfl)
    obtain ⟨s', stopped, pcs, view, heap, batches, freed, none⟩ := staged'.stopBatch_alone db (Function.update_self ..)
    rw [if_pos drains, if_pos drains]
    refine ⟨s', tested.trans stopped, ?_, view, heap, batches, freed, none⟩
    rw [pcs]
    exact Function.update_idem ..
  · have tested : Alone t (s.setPc t (.test after full)) (s.setPc t after.pc) :=
      Alone.refl.run (by simp [stepRun, setPc, drains])
    rw [if_neg drains, if_neg drains]
    exact ⟨_, tested, rfl, rfl, rfl, rfl, List.prefix_refl _, rfl⟩

/-- The barriers of a thread that is not interrupted are those of the sequential store. -/
theorem Staged.barrier_alone {stage : Nat → Stage Thread} {c : LDBCall} (staged : Staged s stage)
    (idle : s.pcs t = .idle) (barrier : c = .readBarrier ∨ c = .writeBarrier) :
    ∃ s', Alone t s s' ∧ s'.pcs = s.pcs ∧ s'.view db = ((s.view db).writeBarrier true).2 := by
  have called : Alone t s (s.setPc t (.capture .ret)) := by
    refine Alone.refl.step (e := .call t c) rfl ?_
    rcases barrier with rfl | rfl <;> exact if_pos idle
  have staged' : Staged (s.setPc t (.capture .ret)) stage :=
    staged.same (.of_pc (by rw [idle]; rfl) rfl rfl rfl rfl rfl rfl rfl)
  obtain ⟨s', stopped, pcs, view, -⟩ := staged'.stopBatch_alone db (Function.update_self ..)
  refine ⟨s', called.trans stopped, ?_, view⟩
  rw [pcs]
  show Function.update (Function.update s.pcs t _) t LDBPc.idle = s.pcs
  rw [Function.update_idem, ← idle, Function.update_eq_self]

/-- The locked append and the two counters, without interruption. -/
theorem append_alone {m : Mutation} {address : Address} (db : Db) (pc : s.pcs t = .append m)
    (sound : s.batch.isSome → ∃ n, s.batchAt s.batch = some n ∧ n < s.batches.length)
    (free : s.heap address = none ∨ ∃ n ∈ s.freed, s.heap address = some n) :
    ∃ s', Alone t s s' ∧ s'.pcs = Function.update s.pcs t .idle ∧
      s'.view db = { s.view db with batch := some ((s.view db).batch.getD [] ++ [m])
                                    batchSize := ((s.view db).batchSize + 1) % 2 ^ 32
                                    batchBytes := ((s.view db).batchBytes + m.value.length) % 2 ^ 32 } := by
  have counted : ∀ middle : SharedLDB Thread, s.appendBatch m address = some middle →
      Alone t s ({ middle with batchSize := (middle.batchSize + 1) % 2 ^ 32
                               batchBytes := (middle.batchBytes + m.value.length) % 2 ^ 32 }.setPc t .idle) := by
    intro middle made
    have appended : Alone t s (middle.setPc t (.countSize m)) :=
      Alone.refl.step (e := .append t m address) rfl (by simp [SharedLDB.step, pc, made])
    have first : Alone t s ({ middle with batchSize := (middle.batchSize + 1) % 2 ^ 32 }.setPc t (.countBytes m)) :=
      appended.step (e := .run t) rfl (by simp [SharedLDB.step, stepRun, setPc])
    exact first.step (e := .run t) rfl (by simp [SharedLDB.step, stepRun, setPc])
  cases begun : s.batch.isSome with
  | false =>
    have empty : s.batch = none := by simpa using begun
    refine ⟨_, counted _ (appendBatch_of_none empty free), rfl, ?_⟩
    simp [view, setPc, batchAt, empty]
  | true =>
    obtain ⟨n, leads, bound⟩ := sound begun
    refine ⟨_, counted _ (appendBatch_of_batchAt leads), rfl, ?_⟩
    have found : s.batch.bind s.heap = some n := leads
    simp [view, setPc, batchAt, found, bound]

/-- A mutation of a thread that is not interrupted is that of the sequential store. -/
theorem Staged.mutation_alone {stage : Nat → Stage Thread} {address : Address} (staged : Staged s stage)
    (idle : s.pcs t = .idle) (free : s.heap address = none ∨ ∃ n ∈ s.freed, s.heap address = some n) (m : Mutation)
    (flush : Bool) :
    ∃ s', Alone t s s' ∧ s'.pcs = s.pcs ∧ s'.view db = ((s.view db).batchMutation m flush true true).2 := by
  have called : Alone t s (s.setPc t (.readSize m flush)) :=
    Alone.refl.step (e := .call t (.mutation m flush)) rfl (if_pos idle)
  have sized : Alone t s (s.setPc t (.readBytes m flush ((s.batchSize + 1) % 2 ^ 32))) :=
    called.run (by simp [stepRun, setPc])
  have back : ∀ pcs : Thread → LDBPc, pcs = Function.update s.pcs t (pcs t) → Function.update pcs t .idle = s.pcs := by
    intro pcs same
    rw [same, Function.update_idem, ← idle, Function.update_eq_self]
  unfold StoreLDB.batchMutation
  split
  next direct =>
    have chosen : (flush ∨ StoreLDB.converted 64 s.maxBatchSize ≤ m.value.length) := direct
    have tested : Alone t s (s.setPc t (.test (.direct m) true)) := sized.run (by simp [stepRun, setPc, chosen])
    obtain ⟨middle, drained, pcs, view, -⟩ := staged.test_alone (.direct m) true db idle
    have mine : middle.pcs t = .direct m := by rw [pcs]; exact Function.update_self ..
    refine ⟨{ middle with db := middle.db ++ [DbWrite.direct m] }.setPc t .idle,
      (tested.trans drained).step (e := .run t) rfl (by simp [SharedLDB.step, stepRun, mine]),
      back _ (by rw [mine, pcs]; rfl), ?_⟩
    simp only [and_true] at view
    rw [← view]
    simp [SharedLDB.view, setPc, batchAt, DbWrite.mutations, applyAll]
  next deferred =>
    have chosen : ¬ (flush ∨ StoreLDB.converted 64 s.maxBatchSize ≤ m.value.length) := deferred
    have tested : Alone t s
      (s.setPc t (.test (.append m) (StoreLDB.converted 32 s.maxBatchSize ≤ (s.batchSize + 1) % 2 ^ 32 ||
        StoreLDB.converted 32 s.maxBatchBytes ≤ (s.batchBytes + m.value.length) % 2 ^ 32))) := by
      refine sized.run ?_
      unfold stepRun
      rw [show (s.setPc t (.readBytes m flush ((s.batchSize + 1) % 2 ^ 32))).pcs t = _ from Function.update_self ..]
      exact if_neg chosen
    obtain ⟨middle, drained, pcs, view, heap, batches, freed, batch⟩ := staged.test_alone (.append m) _ db idle
    have drained := tested.trans drained
    have mine : middle.pcs t = .append m := by rw [pcs]; exact Function.update_self ..
    have sound : middle.batch.isSome → ∃ n, middle.batchAt middle.batch = some n ∧ n < middle.batches.length := by
      rw [batchAt, heap, batches, batch]
      split
      · simp
      · exact staged.batchAt_batch
    have free' : middle.heap address = none ∨ ∃ n ∈ middle.freed, middle.heap address = some n := by
      rw [heap]
      rcases free with none | ⟨n, member, leads⟩
      · exact .inl none
      · exact .inr ⟨n, freed.subset member, leads⟩
    obtain ⟨s', appended, pcs', view'⟩ := append_alone db mine sound free'
    refine ⟨s', drained.trans appended, pcs'.trans (back _ (by rw [mine, pcs]; rfl)), ?_⟩
    simp only [Bool.or_eq_true, decide_eq_true_eq] at view
    rw [view', view]
    rfl

end SharedLDB

end LSMIO
