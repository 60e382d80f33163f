import LSMIO.BatchThreads
import LSMIO.Library.Runs

namespace LSMIO

/-- The contents of a batch among the writes of LevelDB, with its number. -/
def DbWrite.batch? : DbWrite → Option (Nat × List Mutation)
  | .batch n ms => some (n, ms)
  | .direct _ => none

/-- The thread has taken a batch that it is to write and delete. -/
def LDBPc.holds : LDBPc → Bool
  | .write .. | .delete .. => true
  | _ => false

/-- The steps that a barrier still has to take. -/
def LDBPc.stepsLeft : LDBPc → Nat
  | .capture _ => 4
  | .lock .. => 3
  | .write .. => 2
  | .delete .. => 1
  | _ => 0

/-- The mutation that the step adds to a batch. -/
def LDBStep.batched? {Thread : Type*} : LDBStep Thread → Option Mutation
  | .append _ m _ => some m
  | _ => none

/-- The mutations put into batches, oldest first. -/
def batchedMutations {Thread : Type*} (trace : List (LDBStep Thread)) : List Mutation :=
  trace.filterMap LDBStep.batched?

/-- Where a batch is between its making and its deletion. -/
inductive Stage (Thread : Type*)
  | current
  | writing (t : Thread)
  | deleting (t : Thread)
  | done

namespace SharedLDB

variable {Thread : Type*}

def batchWrites (s : SharedLDB Thread) : List (Nat × List Mutation) := s.db.filterMap DbWrite.batch?

/-- The numbers of the batches given to LevelDB, in order. -/
def written (s : SharedLDB Thread) : List Nat := s.batchWrites.map Prod.fst

/-- What the mutations written in batches are, in order. -/
def writtenMutations (s : SharedLDB Thread) : List Mutation := s.batchWrites.flatMap Prod.snd

/-- A locked section that finds a batch finds the one its thread read before. -/
def OwnedAt (s : SharedLDB Thread) : LDBPc → Prop
  | .lock _ oldBatch => s.batch.isSome → s.batch = oldBatch
  | _ => True

def Owned (s : SharedLDB Thread) : LDBStep Thread → Prop
  | .run t => s.OwnedAt (s.pcs t)
  | .call .. | .append .. => True

instance (s : SharedLDB Thread) : DecidablePred s.OwnedAt
  | .lock _ oldBatch => inferInstanceAs (Decidable (s.batch.isSome → s.batch = oldBatch))
  | .idle | .readSize .. | .readBytes .. | .test .. | .capture _ | .write .. | .delete .. | .direct _ | .append _
  | .countSize _ | .countBytes _ => .isTrue trivial

instance : DecidableRel (@Owned Thread)
  | s, .run t => inferInstanceAs (Decidable (s.OwnedAt (s.pcs t)))
  | _, .call .. | _, .append .. => .isTrue trivial

def StageAt (s : SharedLDB Thread) (n : Nat) : Stage Thread → Prop
  | .current => s.batchAt s.batch = some n ∧ n ∉ s.written ∧ n ∉ s.freed
  | .writing t => (∃ after old, s.pcs t = .write after old ∧ s.batchAt old = some n) ∧ n ∉ s.written ∧ n ∉ s.freed
  | .deleting t => (∃ after old, s.pcs t = .delete after old ∧ s.batchAt old = some n) ∧ n ∈ s.written ∧ n ∉ s.freed
  | .done => n ∈ s.written ∧ n ∈ s.freed

/-- Each batch has one stage, and each pointer in use leads to the batch whose stage says so. -/
structure Staged (s : SharedLDB Thread) (stage : Nat → Stage Thread) : Prop where
  made : ∀ address n, s.heap address = some n → n < s.batches.length
  current : ∀ address, s.batch = some address →
    ∃ n, s.heap address = some n ∧ n + 1 = s.batches.length ∧ stage n = .current
  writer : ∀ t after old, s.pcs t = .write after old → ∃ n, s.batchAt old = some n ∧ stage n = .writing t
  deleter : ∀ t after old, s.pcs t = .delete after old → ∃ n, s.batchAt old = some n ∧ stage n = .deleting t
  each : ∀ n < s.batches.length, s.StageAt n (stage n)
  writtenMade : ∀ n ∈ s.written, n < s.batches.length
  freedMade : ∀ n ∈ s.freed, n < s.batches.length
  writtenOnce : s.written.Nodup
  freedOnce : s.freed.Nodup

variable {s s' : SharedLDB Thread} {stage : Nat → Stage Thread} {t : Thread} {after : AfterStop} {n : Nat}

theorem batchAt_eq_some {pointer : Option Address} :
    s.batchAt pointer = some n ↔ ∃ address, pointer = some address ∧ s.heap address = some n := Option.bind_eq_some_iff

theorem StageAt.unfreed {at' : Stage Thread} (here : s.StageAt n at') (busy : at' ≠ .done) : n ∉ s.freed := by
  cases at' with
  | current => exact here.2.2
  | writing t => exact here.2.2
  | deleting t => exact here.2.2
  | done => exact absurd rfl busy

/-- Nothing that the stages speak of is touched: the batch, the heap, what is written
and freed, and which threads hold a batch. -/
structure SameStages (s s' : SharedLDB Thread) : Prop where
  batch : s'.batch = s.batch
  heap : s'.heap = s.heap
  made : s'.batches.length = s.batches.length
  written : s'.written = s.written
  freed : s'.freed = s.freed
  write : ∀ t after old, s'.pcs t = .write after old ↔ s.pcs t = .write after old
  delete : ∀ t after old, s'.pcs t = .delete after old ↔ s.pcs t = .delete after old

theorem SameStages.batchAt (same : SameStages s s') (pointer : Option Address) :
    s'.batchAt pointer = s.batchAt pointer := by
  rw [SharedLDB.batchAt, same.heap, SharedLDB.batchAt]

theorem SameStages.stageAt (same : SameStages s s') (n : Nat) (at' : Stage Thread) :
    s'.StageAt n at' ↔ s.StageAt n at' := by
  cases at' with
  | current => simp only [StageAt, same.batchAt, same.batch, same.written, same.freed]
  | writing t => simp only [StageAt, same.batchAt, same.write, same.written, same.freed]
  | deleting t => simp only [StageAt, same.batchAt, same.delete, same.written, same.freed]
  | done => simp only [StageAt, same.written, same.freed]

theorem Staged.same (staged : Staged s stage) (same : SameStages s s') : Staged s' stage := by
  refine ⟨?_, ?_, ?_, ?_, ?_, ?_, ?_, ?_, ?_⟩
  · rw [same.heap, same.made]
    exact staged.made
  · rw [same.batch, same.heap, same.made]
    exact staged.current
  · intro t after old holds
    rw [same.batchAt]
    exact staged.writer t after old ((same.write t after old).mp holds)
  · intro t after old holds
    rw [same.batchAt]
    exact staged.deleter t after old ((same.delete t after old).mp holds)
  · intro n bound
    exact (same.stageAt n _).mpr (staged.each n (same.made ▸ bound))
  · rw [same.written, same.made]
    exact staged.writtenMade
  · rw [same.freed, same.made]
    exact staged.freedMade
  · rw [same.written]
    exact staged.writtenOnce
  · rw [same.freed]
    exact staged.freedOnce

/-- A step of thread `t` that is about the `n`-th batch: every other batch and
thread is as it was. -/
structure Moves (s s' : SharedLDB Thread) (t : Thread) (n : Nat) : Prop where
  heap : s'.heap = s.heap
  made : s'.batches.length = s.batches.length
  taken : ∀ address, s'.batch = some address → s.batch = some address
  left : ∀ m, m ≠ n → s.batchAt s.batch = some m → s'.batch = s.batch
  written : ∀ m, m ≠ n → (m ∈ s'.written ↔ m ∈ s.written)
  freed : ∀ m, m ≠ n → (m ∈ s'.freed ↔ m ∈ s.freed)
  others : ∀ u, u ≠ t → s'.pcs u = s.pcs u
  mine : ∀ after old, s.pcs t = .write after old ∨ s.pcs t = .delete after old → s.batchAt old = some n

theorem Moves.batchAt (moves : Moves s s' t n) (pointer : Option Address) : s'.batchAt pointer = s.batchAt pointer := by
  rw [SharedLDB.batchAt, moves.heap, SharedLDB.batchAt]

/-- The other batches keep their stages. -/
theorem Moves.stageAt {m : Nat} {at' : Stage Thread} (moves : Moves s s' t n) (other : m ≠ n)
    (staged : s.StageAt m at') : s'.StageAt m at' := by
  have holder : ∀ {u after old}, s.pcs u = .write after old ∨ s.pcs u = .delete after old →
      s.batchAt old = some m → s'.pcs u = s.pcs u := by
    intro u after old holds leads
    refine moves.others u fun mine => ?_
    subst mine
    exact other (Option.some.inj (leads.symm.trans (moves.mine after old holds)))
  cases at' with
  | current =>
    obtain ⟨leads, unwritten, unfreed⟩ := staged
    exact ⟨by rw [moves.left m other leads, moves.batchAt, leads], fun w => unwritten ((moves.written m other).mp w),
      fun f => unfreed ((moves.freed m other).mp f)⟩
  | writing u =>
    obtain ⟨⟨after, old, holds, leads⟩, unwritten, unfreed⟩ := staged
    exact ⟨⟨after, old, by rw [holder (.inl holds) leads, holds], by rw [moves.batchAt, leads]⟩,
      fun w => unwritten ((moves.written m other).mp w), fun f => unfreed ((moves.freed m other).mp f)⟩
  | deleting u =>
    obtain ⟨⟨after, old, holds, leads⟩, written, unfreed⟩ := staged
    exact ⟨⟨after, old, by rw [holder (.inr holds) leads, holds], by rw [moves.batchAt, leads]⟩,
      (moves.written m other).mpr written, fun f => unfreed ((moves.freed m other).mp f)⟩
  | done => exact ⟨(moves.written m other).mpr staged.1, (moves.freed m other).mpr staged.2⟩

/-- The batch in hand goes to its next stage. -/
theorem Staged.moved (next : Stage Thread) (staged : Staged s stage) (moves : Moves s s' t n)
    (bound : n < s.batches.length)
    (hand : stage n = .current ∧ s'.batch = none ∨ stage n = .writing t ∨ stage n = .deleting t)
    (writer : ∀ after old, s'.pcs t = .write after old → s'.batchAt old = some n ∧ next = .writing t)
    (deleter : ∀ after old, s'.pcs t = .delete after old → s'.batchAt old = some n ∧ next = .deleting t)
    (here : s'.StageAt n next) (written : s'.written.Nodup) (freed : s'.freed.Nodup) :
    Staged s' (Function.update stage n next) := by
  have elsewhere : ∀ {u m}, u ≠ t → stage m = .writing u ∨ stage m = .deleting u → m ≠ n := by
    rintro u m other holds rfl
    rcases hand with ⟨current, -⟩ | mine | mine <;> rcases holds with theirs | theirs <;> simp_all
  refine ⟨?_, ?_, ?_, ?_, ?_, ?_, ?_, written, freed⟩
  · rw [moves.heap, moves.made]
    exact staged.made
  · intro address batch
    obtain ⟨m, leads, last, current⟩ := staged.current address (moves.taken address batch)
    have other : m ≠ n := by
      rintro rfl
      rcases hand with ⟨-, none⟩ | mine | mine
      · exact absurd (none.symm.trans batch) (by simp)
      · exact absurd (mine.symm.trans current) (by simp)
      · exact absurd (mine.symm.trans current) (by simp)
    exact ⟨m, by rw [moves.heap, leads], by rw [moves.made, last], by rw [Function.update_of_ne other, current]⟩
  · intro u after old holds
    by_cases mine : u = t
    · subst mine
      obtain ⟨leads, rfl⟩ := writer after old holds
      exact ⟨n, leads, Function.update_self ..⟩
    · obtain ⟨m, leads, at'⟩ := staged.writer u after old (moves.others u mine ▸ holds)
      exact ⟨m, by rw [moves.batchAt, leads], by rw [Function.update_of_ne (elsewhere mine (.inl at')), at']⟩
  · intro u after old holds
    by_cases mine : u = t
    · subst mine
      obtain ⟨leads, rfl⟩ := deleter after old holds
      exact ⟨n, leads, Function.update_self ..⟩
    · obtain ⟨m, leads, at'⟩ := staged.deleter u after old (moves.others u mine ▸ holds)
      exact ⟨m, by rw [moves.batchAt, leads], by rw [Function.update_of_ne (elsewhere mine (.inr at')), at']⟩
  · intro m inside
    by_cases other : m = n
    · subst other
      rwa [Function.update_self]
    · rw [Function.update_of_ne other]
      exact moves.stageAt other (staged.each m (moves.made ▸ inside))
  · intro m member
    rw [moves.made]
    by_cases other : m = n
    · rwa [other]
    · exact staged.writtenMade m ((moves.written m other).mp member)
  · intro m member
    rw [moves.made]
    by_cases other : m = n
    · rwa [other]
    · exact staged.freedMade m ((moves.freed m other).mp member)

theorem writeBatch_of_batchAt {old : Option Address} (leads : s.batchAt old = some n) :
    s.writeBatch old = { s with db := s.db ++ [.batch n (s.batches[n]?.getD [])] } := by
  rw [writeBatch, leads]

theorem deleteBatch_of_batchAt {old : Option Address} (leads : s.batchAt old = some n) :
    s.deleteBatch old = { s with freed := s.freed ++ [n] } := by
  rw [deleteBatch, leads]

theorem flatten_modify_last {batches : List (List Mutation)} (last : n + 1 = batches.length) (m : Mutation) :
    (batches.modify n (· ++ [m])).flatten = batches.flatten ++ [m] := by
  rcases List.eq_nil_or_concat batches with rfl | ⟨front, batch, rfl⟩
  · cases last
  · have bound : n = front.length := by simpa using last
    subst bound
    rw [List.modify_eq_take_cons_drop (by simp)]
    simp

theorem appendBatch_of_none {m : Mutation} {address : Address} (empty : s.batch = none)
    (free : s.heap address = none ∨ ∃ n ∈ s.freed, s.heap address = some n) :
    s.appendBatch m address = some { s with batch := some address
                                            heap := Function.update s.heap address (some s.batches.length)
                                            batches := s.batches ++ [[m]] } := by
  unfold appendBatch
  split
  next => exact if_pos free
  next current same => exact absurd (empty.symm.trans same) (by simp)

theorem appendBatch_of_batchAt {m : Mutation} {address : Address} (leads : s.batchAt s.batch = some n) :
    s.appendBatch m address = some { s with batches := s.batches.modify n (· ++ [m]) } := by
  obtain ⟨current, begun, found⟩ := batchAt_eq_some.mp leads
  unfold appendBatch
  split
  next empty => exact absurd (empty.symm.trans begun) (by simp)
  next other same =>
    cases same.symm.trans begun
    rw [found]
    rfl

theorem batchWrites_append (w : DbWrite) (grown : s'.db = s.db ++ [w]) :
    s'.batchWrites = s.batchWrites ++ w.batch?.toList := by
  rw [batchWrites, batchWrites, grown, List.filterMap_snoc]

theorem written_append (w : DbWrite) (grown : s'.db = s.db ++ [w]) :
    s'.written = s.written ++ (w.batch?.map Prod.fst).toList := by
  rw [written, written, batchWrites_append w grown, List.map_append]
  cases w.batch? <;> rfl

variable {trace : List (LDBStep Thread)} {e : LDBStep Thread}

/-- Every batched mutation is in one batch, and the batches written were written whole. -/
structure Accounted (trace : List (LDBStep Thread)) (s : SharedLDB Thread) : Prop where
  staged : ∃ stage, Staged s stage
  all : s.batches.flatten = batchedMutations trace
  contents : ∀ n ms, (n, ms) ∈ s.batchWrites → s.batches[n]? = some ms

theorem accounted_open (maxBatchSize maxBatchBytes : Int) :
    Accounted [] (openStore maxBatchSize maxBatchBytes : SharedLDB Thread) := by
  refine ⟨⟨fun _ => .done, ?_, ?_, ?_, ?_, ?_, ?_, ?_, ?_, ?_⟩, rfl, ?_⟩
  all_goals simp [openStore, written, batchWrites]

theorem Accounted.same (accounted : Accounted trace s) (same : SameStages s s') (batches : s'.batches = s.batches)
    (writes : s'.batchWrites = s.batchWrites) (silent : e.batched? = none) : Accounted (trace ++ [e]) s' := by
  obtain ⟨⟨stage, staged⟩, all, contents⟩ := accounted
  refine ⟨⟨stage, staged.same same⟩, ?_, ?_⟩
  · rw [batches, all, batchedMutations, batchedMutations, List.filterMap_snoc, silent, Option.toList_none,
      List.append_nil]
  · rw [writes, batches]
    exact contents

/-- With every thread idle and no batch begun, each batch has been written once and deleted once. -/
theorem Accounted.finished (accounted : Accounted trace s) (idle : ∀ t, s.pcs t = .idle) (empty : s.batch = none) :
    s.written.Perm (List.range s.batches.length) ∧ s.freed.Perm (List.range s.batches.length) ∧
      s.writtenMutations.Perm (batchedMutations trace) := by
  obtain ⟨⟨stage, staged⟩, all, contents⟩ := accounted
  have done : ∀ n < s.batches.length, n ∈ s.written ∧ n ∈ s.freed := by
    intro n bound
    have here := staged.each n bound
    cases same : stage n with
    | current =>
      rw [same] at here
      obtain ⟨_, some, -⟩ := batchAt_eq_some.mp here.1
      exact absurd (empty.symm.trans some) (by simp)
    | writing t =>
      rw [same] at here
      obtain ⟨⟨_, _, busy, -⟩, -⟩ := here
      exact absurd ((idle t).symm.trans busy) (by simp)
    | deleting t =>
      rw [same] at here
      obtain ⟨⟨_, _, busy, -⟩, -⟩ := here
      exact absurd ((idle t).symm.trans busy) (by simp)
    | done =>
      rw [same] at here
      exact here
  have written : s.written.Perm (List.range s.batches.length) := by
    refine (List.perm_ext_iff_of_nodup staged.writtenOnce List.nodup_range).mpr fun n => ?_
    exact ⟨fun member => List.mem_range.mpr (staged.writtenMade n member), fun bound =>
      (done n (List.mem_range.mp bound)).1⟩
  have freed : s.freed.Perm (List.range s.batches.length) := by
    refine (List.perm_ext_iff_of_nodup staged.freedOnce List.nodup_range).mpr fun n => ?_
    exact ⟨fun member => List.mem_range.mpr (staged.freedMade n member), fun bound =>
      (done n (List.mem_range.mp bound)).2⟩
  refine ⟨written, freed, ?_⟩
  have whole : s.batchWrites.map Prod.snd = s.written.map fun n => s.batches[n]?.getD [] := by
    rw [SharedLDB.written, List.map_map]
    refine List.map_congr_left fun w member => ?_
    obtain ⟨n, ms⟩ := w
    rw [Function.comp_apply, contents n ms member]
    rfl
  have inOrder : (List.range s.batches.length).map (fun n => s.batches[n]?.getD []) = s.batches := by
    refine List.ext_getElem (by simp) fun n bound _ => ?_
    simp at bound
    simp [bound]
  rw [writtenMutations, List.flatMap_def, whole, ← all]
  exact ((written.map _).trans (.of_eq inOrder)).flatten

/-- The only thread in a call is `t`, in a barrier; behind its locked section there is no batch. -/
def InBarrier (s : SharedLDB Thread) (t : Thread) : Prop :=
  (∀ u, u ≠ t → s.pcs u = .idle) ∧ (s.pcs t = .capture .ret ∨ s.pcs t = .lock .ret s.batch ∨
    s.batch = none ∧ (s.pcs t = .idle ∨ ∃ old, s.pcs t = .write .ret old ∨ s.pcs t = .delete .ret old))

theorem InBarrier.owned (barrier : s.InBarrier t) : s.OwnedAt (s.pcs t) := by
  rcases barrier.2 with pc | pc | ⟨-, pc | ⟨old, pc | pc⟩⟩ <;> rw [pc]
  · trivial
  · exact fun _ => rfl
  · trivial
  · trivial
  · trivial

theorem InBarrier.batch (barrier : s.InBarrier t) (returned : s.pcs t = .idle) : s.batch = none := by
  rcases barrier.2 with pc | pc | ⟨empty, -⟩
  · exact absurd (returned.symm.trans pc) (by simp)
  · exact absurd (returned.symm.trans pc) (by simp)
  · exact empty

section Steps

variable [DecidableEq Thread]

/-- The locked section of `stopBatch` takes the batch that its thread has read. -/
theorem Staged.lock {address : Address} (staged : Staged s stage) (holds : s.pcs t = .lock after (some address))
    (found : s.batch = some address) :
    ∃ stage', Staged ({ s with batch := none, batchSize := 0, batchBytes := 0 }.setPc t
      (.write after (some address))) stage' := by
  obtain ⟨n, leads, last, current⟩ := staged.current address found
  have bound : n < s.batches.length := by omega
  have here := staged.each n bound
  rw [current] at here
  have moves : Moves s
      ({ s with batch := none, batchSize := 0, batchBytes := 0 }.setPc t (.write after (some address))) t n := by
    refine ⟨rfl, rfl, fun _ none => ?_, fun m other leads' => ?_, fun _ _ => Iff.rfl, fun _ _ => Iff.rfl,
      fun u other => ?_, fun _ _ mine => ?_⟩
    · cases none
    · obtain ⟨_, same, leads'⟩ := batchAt_eq_some.mp leads'
      cases found.symm.trans same
      exact absurd (Option.some.inj (leads'.symm.trans leads)) other
    · exact Function.update_of_ne other ..
    · rw [holds] at mine
      rcases mine with mine | mine <;> cases mine
  refine ⟨_, staged.moved (.writing t) moves bound (.inl ⟨current, rfl⟩) ?_ ?_ ?_ staged.writtenOnce staged.freedOnce⟩
  · intro after' old' same
    cases (Function.update_self t _ s.pcs).symm.trans same
    exact ⟨leads, rfl⟩
  · intro after' old' same
    cases (Function.update_self t _ s.pcs).symm.trans same
  · exact ⟨⟨after, some address, Function.update_self .., leads⟩, here.2⟩

/-- The write of a batch that its thread has taken. -/
theorem Staged.write {old : Option Address} (staged : Staged s stage) (holds : s.pcs t = .write after old)
    (leads : s.batchAt old = some n) :
    ∃ stage', Staged ((s.writeBatch old).setPc t (.delete after old)) stage' := by
  obtain ⟨_, same, writing⟩ := staged.writer t after old holds
  cases leads.symm.trans same
  obtain ⟨address, -, found⟩ := batchAt_eq_some.mp leads
  have bound := staged.made address n found
  have here := staged.each n bound
  rw [writing] at here
  obtain ⟨-, unwritten, unfreed⟩ := here
  rw [writeBatch_of_batchAt leads]
  generalize ms : s.batches[n]?.getD [] = contents
  have written : ({ s with db := s.db ++ [DbWrite.batch n contents] }.setPc t (.delete after old)).written =
    s.written ++ [n] :=
    written_append (.batch n contents) rfl
  have moves : Moves s ({ s with db := s.db ++ [DbWrite.batch n contents] }.setPc t (.delete after old)) t n := by
    refine ⟨rfl, rfl, fun _ same => same, fun _ _ _ => rfl, fun m other => ?_, fun _ _ => Iff.rfl, fun u other => ?_,
      fun _ _ mine => ?_⟩
    · rw [written, List.mem_append, List.mem_singleton, or_iff_left other]
    · exact Function.update_of_ne other ..
    · rw [holds] at mine
      rcases mine with mine | mine <;> cases mine
      exact leads
  refine ⟨_, staged.moved (.deleting t) moves bound (.inr (.inl writing)) ?_ ?_ ?_ ?_ staged.freedOnce⟩
  · intro after' old' same
    cases (Function.update_self t _ s.pcs).symm.trans same
  · intro after' old' same
    cases (Function.update_self t _ s.pcs).symm.trans same
    exact ⟨leads, rfl⟩
  · exact ⟨⟨after, old, Function.update_self .., leads⟩, by rw [written]; simp, unfreed⟩
  · rw [written, ← List.concat_eq_append]
    exact staged.writtenOnce.concat unwritten

/-- The deletion of a batch that its thread has written. -/
theorem Staged.delete {old : Option Address} (staged : Staged s stage) (holds : s.pcs t = .delete after old)
    (leads : s.batchAt old = some n) :
    ∃ stage', Staged ((s.deleteBatch old).setPc t after.pc) stage' := by
  obtain ⟨_, same, deleting⟩ := staged.deleter t after old holds
  cases leads.symm.trans same
  obtain ⟨address, -, found⟩ := batchAt_eq_some.mp leads
  have bound := staged.made address n found
  have here := staged.each n bound
  rw [deleting] at here
  obtain ⟨-, written, unfreed⟩ := here
  rw [deleteBatch_of_batchAt leads]
  have moves : Moves s ({ s with freed := s.freed ++ [n] }.setPc t after.pc) t n := by
    refine ⟨rfl, rfl, fun _ same => same, fun _ _ _ => rfl, fun _ _ => Iff.rfl, fun m other => ?_, fun u other => ?_,
      fun _ _ mine => ?_⟩
    · show m ∈ s.freed ++ [n] ↔ m ∈ s.freed
      rw [List.mem_append, List.mem_singleton, or_iff_left other]
    · exact Function.update_of_ne other ..
    · rw [holds] at mine
      rcases mine with mine | mine <;> cases mine
      exact leads
  have free : ∀ after' old', after.pc ≠ .write after' old' ∧ after.pc ≠ .delete after' old' := by
    intro after' old'
    cases after <;> simp [AfterStop.pc]
  refine ⟨_, staged.moved .done moves bound (.inr (.inr deleting)) ?_ ?_ ?_ staged.writtenOnce ?_⟩
  · intro after' old' same
    exact absurd ((Function.update_self t _ s.pcs).symm.trans same) (free after' old').1
  · intro after' old' same
    exact absurd ((Function.update_self t _ s.pcs).symm.trans same) (free after' old').2
  · refine ⟨written, ?_⟩
    show n ∈ s.freed ++ [n]
    simp
  · show (s.freed ++ [n]).Nodup
    rw [← List.concat_eq_append]
    exact staged.freedOnce.concat unfreed

/-- A new batch, at an address where nothing is left. -/
theorem Staged.make {m : Mutation} {address : Address} (staged : Staged s stage) (holds : s.pcs t = .append m)
    (empty : s.batch = none) (free : s.heap address = none ∨ ∃ n ∈ s.freed, s.heap address = some n) :
    ∃ stage', Staged ({ s with batch := some address
                               heap := Function.update s.heap address (some s.batches.length)
                               batches := s.batches ++ [[m]] }.setPc t (.countSize m)) stage' := by
  generalize made : ({ s with batch := some address
                              heap := Function.update s.heap address (some s.batches.length)
                              batches := s.batches ++ [[m]] }.setPc t (.countSize m)) = s'
  have heap : s'.heap = Function.update s.heap address (some s.batches.length) := by rw [← made]; rfl
  have length : s'.batches.length = s.batches.length + 1 := by rw [← made]; exact List.length_append
  have written : s'.written = s.written := by rw [← made]; rfl
  have freed : s'.freed = s.freed := by rw [← made]; rfl
  have others : ∀ u, u ≠ t → s'.pcs u = s.pcs u := fun u other => by rw [← made]; exact Function.update_of_ne other ..
  have mine : s'.pcs t = .countSize m := by rw [← made]; exact Function.update_self ..
  have kept : ∀ {old k}, s.batchAt old = some k → k ∉ s.freed → s'.batchAt old = some k := by
    intro old k leads unfreed
    obtain ⟨address', rfl, found⟩ := batchAt_eq_some.mp leads
    have other : address' ≠ address := by
      rintro rfl
      rcases free with none | ⟨j, member, some⟩
      · exact absurd (none.symm.trans found) (by simp)
      · cases found.symm.trans some
        exact unfreed member
    exact batchAt_eq_some.mpr ⟨address', rfl, by rw [heap, Function.update_of_ne other, found]⟩
  have pointer : ∀ {old k}, s.batchAt old = some k → stage k ≠ .done →
      s'.batchAt old = some k ∧ Function.update stage s.batches.length .current k = stage k := by
    intro old k leads busy
    obtain ⟨_, -, found⟩ := batchAt_eq_some.mp leads
    have bound := staged.made _ k found
    exact ⟨kept leads ((staged.each k bound).unfreed busy), Function.update_of_ne bound.ne ..⟩
  have holder : ∀ {u pc}, s'.pcs u = pc → pc ≠ .countSize m → s.pcs u = pc := by
    rintro u pc rfl counting
    refine (others u fun same => counting ?_).symm
    rw [same, mine]
  have inside : ∀ {k}, s.StageAt k (stage k) → k < s.batches.length →
      s'.StageAt k (Function.update stage s.batches.length .current k) := by
    intro k at' bound
    rw [Function.update_of_ne bound.ne]
    cases same : stage k with
    | current =>
      rw [same] at at'
      obtain ⟨_, some, -⟩ := batchAt_eq_some.mp at'.1
      exact absurd (empty.symm.trans some) (by simp)
    | writing u =>
      rw [same] at at'
      obtain ⟨⟨after, old, theirs, leads⟩, unwritten, unfreed⟩ := at'
      have other : u ≠ t := fun same => absurd (theirs.symm.trans (same ▸ holds)) (by simp)
      exact ⟨⟨after, old, by rw [others u other, theirs], kept leads unfreed⟩, by rwa [written], by rwa [freed]⟩
    | deleting u =>
      rw [same] at at'
      obtain ⟨⟨after, old, theirs, leads⟩, done, unfreed⟩ := at'
      have other : u ≠ t := fun same => absurd (theirs.symm.trans (same ▸ holds)) (by simp)
      exact ⟨⟨after, old, by rw [others u other, theirs], kept leads unfreed⟩, by rwa [written], by rwa [freed]⟩
    | done =>
      rw [same] at at'
      exact ⟨by rw [written]; exact at'.1, by rw [freed]; exact at'.2⟩
  refine ⟨Function.update stage s.batches.length .current, ?_, ?_, ?_, ?_, ?_, ?_, ?_, ?_, ?_⟩
  · intro address' k leads
    rw [heap] at leads
    rw [length]
    by_cases same : address' = address
    · rw [same, Function.update_self] at leads
      cases leads
      exact Nat.lt_succ_self _
    · rw [Function.update_of_ne same] at leads
      exact Nat.lt_succ_of_lt (staged.made address' k leads)
  · intro address' batch
    have same : address = address' := by
      rw [← made] at batch
      exact Option.some.inj batch
    subst same
    exact ⟨s.batches.length, by rw [heap, Function.update_self], length.symm, Function.update_self ..⟩
  · intro u after old theirs
    obtain ⟨k, leads, at'⟩ := staged.writer u after old (holder theirs (by simp))
    obtain ⟨leads', same⟩ := pointer leads (by simp [at'])
    exact ⟨k, leads', same.trans at'⟩
  · intro u after old theirs
    obtain ⟨k, leads, at'⟩ := staged.deleter u after old (holder theirs (by simp))
    obtain ⟨leads', same⟩ := pointer leads (by simp [at'])
    exact ⟨k, leads', same.trans at'⟩
  · intro k bound
    rw [length] at bound
    rcases Nat.lt_succ_iff_lt_or_eq.mp bound with older | rfl
    · exact inside (staged.each k older) older
    · rw [Function.update_self]
      refine ⟨?_, ?_, ?_⟩
      · exact batchAt_eq_some.mpr ⟨address, by rw [← made]; rfl, by rw [heap, Function.update_self]⟩
      · rw [written]
        exact fun member => absurd (staged.writtenMade _ member) (lt_irrefl _)
      · rw [freed]
        exact fun member => absurd (staged.freedMade _ member) (lt_irrefl _)
  · rw [written, length]
    exact fun k member => Nat.lt_succ_of_lt (staged.writtenMade k member)
  · rw [freed, length]
    exact fun k member => Nat.lt_succ_of_lt (staged.freedMade k member)
  · rw [written]
    exact staged.writtenOnce
  · rw [freed]
    exact staged.freedOnce

theorem SameStages.of_pc {pc : LDBPc} (mine : (s.pcs t).holds = false) (next : pc.holds = false)
    (pcs : s'.pcs = Function.update s.pcs t pc) (batch : s'.batch = s.batch) (heap : s'.heap = s.heap)
    (made : s'.batches.length = s.batches.length) (written : s'.written = s.written) (freed : s'.freed = s.freed) :
    SameStages s s' := by
  have kept : ∀ u pc', pc'.holds = true → (s'.pcs u = pc' ↔ s.pcs u = pc') := by
    intro u pc' holds
    rw [pcs]
    by_cases same : u = t
    · subst same
      rw [Function.update_self]
      constructor
      · rintro rfl
        exact absurd (next.symm.trans holds) (by simp)
      · rintro rfl
        exact absurd (mine.symm.trans holds) (by simp)
    · rw [Function.update_of_ne same]
  exact ⟨batch, heap, made, written, freed, fun u _ _ => kept u _ rfl, fun u _ _ => kept u _ rfl⟩

theorem Accounted.pc {pc : LDBPc} (accounted : Accounted trace s) (mine : (s.pcs t).holds = false)
    (next : pc.holds = false) (silent : e.batched? = none) : Accounted (trace ++ [e]) (s.setPc t pc) :=
  accounted.same (.of_pc mine next rfl rfl rfl rfl rfl rfl) rfl rfl silent

theorem holds_after (after : AfterStop) : after.pc.holds = false := by cases after <;> rfl

theorem Accounted.run (accounted : Accounted trace s) (owned : s.OwnedAt (s.pcs t)) (taken : s.stepRun t = some s') :
    Accounted (trace ++ [LDBStep.run t]) s' := by
  obtain ⟨⟨stage, staged⟩, all, contents⟩ := id accounted
  have silent : (trace ++ [LDBStep.run t]).filterMap LDBStep.batched? = batchedMutations trace := by
    rw [List.filterMap_snoc]
    exact List.append_nil _
  unfold stepRun at taken
  cases pc : s.pcs t with
  | idle => simp only [pc, reduceCtorEq] at taken
  | append m => simp only [pc, reduceCtorEq] at taken
  | readSize m flush =>
    simp only [pc] at taken
    cases taken
    exact accounted.pc (by rw [pc]; rfl) rfl rfl
  | readBytes m flush futureSize =>
    simp only [pc] at taken
    split at taken
    · cases taken
      exact accounted.pc (by rw [pc]; rfl) rfl rfl
    · cases taken
      exact accounted.pc (by rw [pc]; rfl) rfl rfl
  | test after full =>
    simp only [pc] at taken
    cases taken
    refine accounted.pc (by rw [pc]; rfl) ?_ rfl
    split
    · rfl
    · exact holds_after after
  | capture after =>
    simp only [pc] at taken
    cases taken
    exact accounted.pc (by rw [pc]; rfl) rfl rfl
  | lock after old =>
    simp only [pc] at taken
    cases found : s.batch with
    | none =>
      rw [if_pos (by rw [found]; rfl)] at taken
      cases taken
      exact accounted.pc (by rw [pc]; rfl) (holds_after after) rfl
    | some address =>
      rw [if_neg (by rw [found]; simp)] at taken
      cases taken
      rw [pc] at owned
      have same : s.batch = old := owned (by rw [found]; rfl)
      subst same
      rw [found] at pc ⊢
      exact ⟨staged.lock pc found, by rw [batchedMutations, silent, ← all]; rfl, contents⟩
  | write after old =>
    simp only [pc] at taken
    cases taken
    obtain ⟨n, leads, -⟩ := staged.writer t after old pc
    refine ⟨staged.write pc leads, ?_, ?_⟩
    · rw [batchedMutations, silent, ← all, writeBatch_of_batchAt leads]
      rfl
    · obtain ⟨address, -, found⟩ := batchAt_eq_some.mp leads
      have bound := staged.made address n found
      rw [writeBatch_of_batchAt leads]
      intro k ms member
      rw [batchWrites_append (.batch n (s.batches[n]?.getD [])) rfl] at member
      rcases List.mem_append.mp member with older | newest
      · exact contents k ms older
      · cases List.mem_singleton.mp newest
        show s.batches[n]? = _
        rw [List.getElem?_eq_getElem bound]
        rfl
  | delete after old =>
    simp only [pc] at taken
    cases taken
    obtain ⟨n, leads, -⟩ := staged.deleter t after old pc
    refine ⟨staged.delete pc leads, ?_, ?_⟩
    · rw [batchedMutations, silent, ← all, deleteBatch_of_batchAt leads]
      rfl
    · rw [deleteBatch_of_batchAt leads]
      exact contents
  | direct m =>
    simp only [pc] at taken
    cases taken
    have writes : ({ s with db := s.db ++ [DbWrite.direct m] }.setPc t .idle).batchWrites = s.batchWrites :=
      (batchWrites_append (.direct m) rfl).trans (List.append_nil _)
    exact accounted.same (.of_pc (by rw [pc]; rfl) rfl rfl rfl rfl rfl (by rw [written, writes, written]) rfl) rfl
      writes rfl
  | countSize m =>
    simp only [pc] at taken
    cases taken
    exact accounted.same (.of_pc (by rw [pc]; rfl) rfl rfl rfl rfl rfl rfl rfl) rfl rfl rfl
  | countBytes m =>
    simp only [pc] at taken
    cases taken
    exact accounted.same (.of_pc (by rw [pc]; rfl) rfl rfl rfl rfl rfl rfl rfl) rfl rfl rfl

theorem Accounted.append {m : Mutation} {address : Address} (accounted : Accounted trace s) (pc : s.pcs t = .append m)
    (made : s.appendBatch m address = some s') :
    Accounted (trace ++ [.append t m address]) (s'.setPc t (.countSize m)) := by
  obtain ⟨⟨stage, staged⟩, all, contents⟩ := id accounted
  have added : batchedMutations (trace ++ [.append t m address]) = batchedMutations trace ++ [m] := by
    rw [batchedMutations, List.filterMap_snoc]
    rfl
  cases current : s.batch with
  | none =>
    simp only [appendBatch, current] at made
    split at made
    next free =>
      cases made
      refine ⟨staged.make pc current free, ?_, ?_⟩
      · rw [added, ← all]
        exact List.flatten_append.trans (by simp)
      · intro n ms member
        show (s.batches ++ [[m]])[n]? = some ms
        have bound := staged.writtenMade n (List.mem_map_of_mem member)
        rw [List.getElem?_append_left bound]
        exact contents n ms member
    next => cases made
  | some address' =>
    obtain ⟨n, found, last, stage'⟩ := staged.current address' current
    have here := staged.each n (by omega)
    rw [stage'] at here
    rw [appendBatch_of_batchAt here.1] at made
    cases made
    have same : SameStages s ({ s with batches := s.batches.modify n (· ++ [m]) }.setPc t (.countSize m)) :=
      .of_pc (by rw [pc]; rfl) rfl rfl rfl rfl (List.length_modify ..) rfl rfl
    refine ⟨⟨stage, staged.same same⟩, ?_, ?_⟩
    · rw [added, ← all]
      exact flatten_modify_last last m
    · intro k ms member
      have other : n ≠ k := by
        rintro rfl
        exact here.2.1 (List.mem_map_of_mem member)
      show (s.batches.modify n (· ++ [m]))[k]? = some ms
      rw [List.getElem?_modify_ne _ _ other]
      exact contents k ms member

theorem Accounted.step (accounted : Accounted trace s) (owned : s.Owned e) (taken : s.step e = some s') :
    Accounted (trace ++ [e]) s' := by
  cases e with
  | call t c =>
    simp only [SharedLDB.step] at taken
    split at taken
    next idle =>
      cases taken
      refine accounted.pc (by rw [idle]; rfl) ?_ rfl
      cases c <;> rfl
    next => cases taken
  | run t => exact accounted.run owned taken
  | append t m address =>
    simp only [SharedLDB.step] at taken
    split at taken
    next pc =>
      obtain ⟨s'', made, rfl⟩ := Option.map_eq_some_iff.mp taken
      exact accounted.append pc made
    next => cases taken

theorem Accounted.of_run {maxBatchSize maxBatchBytes : Int}
    (run : Run (Allowed SharedLDB.step Owned) (openStore maxBatchSize maxBatchBytes) trace s) : Accounted trace s :=
  run.invariant (accounted_open maxBatchSize maxBatchBytes) fun _ _ _ _ _ accounted taken =>
    accounted.step taken.1 taken.2

/-- Thread `t` alone goes from the call of `writeBarrier` to its return. -/
def FinalBarrier (s : SharedLDB Thread) (t : Thread) (s' : SharedLDB Thread) : Prop :=
  ∃ rest, (∀ e ∈ rest, e = .run t) ∧ Run (Allowed SharedLDB.step fun _ _ => True) s (.call t .writeBarrier :: rest) s' ∧
    s'.pcs t = .idle

theorem InBarrier.next (barrier : s.InBarrier t) (busy : s.pcs t ≠ .idle) :
    ∃ s', s.stepRun t = some s' ∧ s'.InBarrier t ∧ (s'.pcs t).stepsLeft < (s.pcs t).stepsLeft := by
  obtain ⟨others, phase⟩ := barrier
  have kept : ∀ (middle : SharedLDB Thread) pc, middle.pcs = s.pcs → ∀ u, u ≠ t →
    (middle.setPc t pc).pcs u = .idle := by
    intro middle pc same u other
    show Function.update middle.pcs t pc u = .idle
    rw [Function.update_of_ne other, same, others u other]
  have mine : ∀ (middle : SharedLDB Thread) pc, (middle.setPc t pc).pcs t = pc := fun _ _ => Function.update_self ..
  unfold stepRun
  rcases phase with pc | pc | ⟨empty, pc | ⟨old, pc | pc⟩⟩ <;> rw [pc]
  · refine ⟨_, rfl, ⟨kept s _ rfl, .inr (.inl (mine ..))⟩, ?_⟩
    rw [mine]
    exact Nat.lt_succ_self _
  · by_cases empty : s.batch.isNone
    · refine ⟨_, if_pos empty, ⟨kept s _ rfl, .inr (.inr ⟨Option.isNone_iff_eq_none.mp empty, .inl (mine ..)⟩)⟩, ?_⟩
      rw [mine]
      exact Nat.zero_lt_succ _
    · refine ⟨_, if_neg empty, ⟨kept _ _ rfl, .inr (.inr ⟨rfl, .inr ⟨s.batch, .inl (mine ..)⟩⟩)⟩, ?_⟩
      rw [mine]
      exact Nat.lt_succ_self _
  · exact absurd pc busy
  · have frame : (s.writeBatch old).pcs = s.pcs ∧ (s.writeBatch old).batch = s.batch := by
      unfold writeBatch
      split <;> exact ⟨rfl, rfl⟩
    refine ⟨_, rfl, ⟨kept _ _ frame.1, .inr (.inr ⟨frame.2.trans empty, .inr ⟨old, .inr (mine ..)⟩⟩)⟩, ?_⟩
    rw [mine]
    exact Nat.lt_succ_self _
  · have frame : (s.deleteBatch old).pcs = s.pcs ∧ (s.deleteBatch old).batch = s.batch := by
      unfold deleteBatch
      split <;> exact ⟨rfl, rfl⟩
    refine ⟨_, rfl, ⟨kept _ _ frame.1, .inr (.inr ⟨frame.2.trans empty, .inl (mine ..)⟩)⟩, ?_⟩
    rw [mine]
    exact Nat.lt_succ_self _

theorem InBarrier.returns (barrier : s.InBarrier t) : ∃ rest s', (∀ e ∈ rest, e = .run t) ∧
    Run (Allowed SharedLDB.step fun _ _ => True) s rest s' ∧ s'.pcs t = .idle := by
  induction left : (s.pcs t).stepsLeft using Nat.strong_induction_on generalizing s with
  | _ k ih =>
    by_cases idle : s.pcs t = .idle
    · exact ⟨[], s, by simp, .start, idle⟩
    · obtain ⟨middle, taken, barrier', fewer⟩ := barrier.next idle
      obtain ⟨rest, s', alone, run, returned⟩ := ih _ (left ▸ fewer) barrier' rfl
      refine ⟨[] ++ [.run t] ++ rest, s', ?_, (Run.step .start ⟨trivial, taken⟩).append run, returned⟩
      intro e member
      rcases List.mem_cons.mp member with rfl | member
      · rfl
      · exact alone e member

/-- What holds while the last barrier runs. -/
theorem InBarrier.run {rest : List (LDBStep Thread)} (barrier : s.InBarrier t) (accounted : Accounted trace s)
    (run : Run (Allowed SharedLDB.step fun _ _ => True) s rest s') (alone : ∀ e ∈ rest, e = .run t) :
    s'.InBarrier t ∧ Accounted (trace ++ rest) s' := by
  revert alone
  refine run.invariant
    (P := fun rest s' => (∀ e ∈ rest, e = .run t) → s'.InBarrier t ∧ Accounted (trace ++ rest) s') ?_ ?_
  · rw [List.append_nil]
    exact fun _ => ⟨barrier, accounted⟩
  · rintro rest middle e s' - ih ⟨-, taken⟩ alone
    obtain ⟨barrier, accounted⟩ := ih fun e member => alone e (List.mem_append_left _ member)
    cases alone e (by simp)
    rw [← List.append_assoc]
    refine ⟨?_, accounted.step barrier.owned taken⟩
    have busy : middle.pcs t ≠ .idle := by
      intro idle
      simp only [SharedLDB.step, stepRun, idle] at taken
      cases taken
    obtain ⟨_, taken', barrier', -⟩ := barrier.next busy
    cases taken.symm.trans taken'
    exact barrier'

/-- When in each step the locked section takes the batch that its thread has read, no batch
is ever written or deleted twice; and once all threads are back and one more barrier has
run, each batch has been written and deleted exactly once, and the batches make up the
batched mutations in order. -/
theorem drained_once {maxBatchSize maxBatchBytes : Int}
    (run : Run (Allowed SharedLDB.step Owned) (openStore maxBatchSize maxBatchBytes) trace s) :
    s.written.Nodup ∧ s.freed.Nodup ∧ ((∀ u, s.pcs u = .idle) → ∀ t, (∃ s', s.FinalBarrier t s') ∧
      ∀ s', s.FinalBarrier t s' → s'.batches.flatten = batchedMutations trace ∧
        s'.written.Perm (List.range s'.batches.length) ∧ s'.freed.Perm (List.range s'.batches.length) ∧
        s'.writtenMutations.Perm (batchedMutations trace)) := by
  have accounted := Accounted.of_run run
  obtain ⟨stage, staged⟩ := accounted.staged
  refine ⟨staged.writtenOnce, staged.freedOnce, fun idle t => ?_⟩
  have called : s.step (.call t .writeBarrier) = some (s.setPc t (.capture .ret)) := if_pos (idle t)
  have owned : s.Owned (.call t .writeBarrier) := trivial
  have barrier : (s.setPc t (.capture .ret)).InBarrier t :=
    ⟨fun u other => (Function.update_of_ne other ..).trans (idle u), .inl (Function.update_self ..)⟩
  constructor
  · obtain ⟨rest, s', alone, run, returned⟩ := barrier.returns
    exact ⟨s', rest, alone, (Run.step .start ⟨trivial, called⟩).append run, returned⟩
  · rintro s' ⟨rest, alone, whole, returned⟩
    obtain ⟨middle, front, back⟩ := Run.split (show Run _ s ([LDBStep.call t .writeBarrier] ++ rest) s' from whole)
    obtain ⟨first, none, taken⟩ := Run.snoc_inv (show Run _ s ([] ++ [LDBStep.call t .writeBarrier]) middle from front)
    cases none.nil_eq rfl
    cases taken.2.symm.trans called
    obtain ⟨barrier', accounted'⟩ := barrier.run (accounted.step owned called) back alone
    have same : batchedMutations (trace ++ [LDBStep.call t .writeBarrier] ++ rest) = batchedMutations trace := by
      have silent : rest.filterMap LDBStep.batched? = [] :=
        List.filterMap_eq_nil_iff.mpr fun e member => by rw [alone e member]; rfl
      rw [batchedMutations, List.filterMap_append, List.filterMap_append, silent, List.append_nil]
      exact List.append_nil _
    have idle' : ∀ u, s'.pcs u = .idle := by
      intro u
      by_cases mine : u = t
      · rw [mine, returned]
      · exact barrier'.1 u mine
    obtain ⟨written, freed, mutations⟩ := accounted'.finished idle' (barrier'.batch returned)
    exact ⟨accounted'.all.trans same, written, freed, same ▸ mutations⟩

/-- A deferred put that begins a batch between the locked section and the write of a barrier. -/
theorem drained_once_overlapping : ∃ s s' : SharedLDB (Fin 2), s.FinalBarrier 0 s' ∧
    s'.writtenMutations.Perm [.put [1] [1], .put [2] [2]] := by
  obtain ⟨s, run, idle⟩ : ∃ s : SharedLDB (Fin 2), Run (Allowed SharedLDB.step Owned) (openStore 512 1000000)
      ([LDBStep.call 0 (.mutation (.put [1] [1]) false), .run 0, .run 0, .run 0, .append 0 (.put [1] [1]) 0, .run 0,
        .run 0, .call 1 .readBarrier, .run 1, .run 1,
        .call 0 (.mutation (.put [2] [2]) false), .run 0, .run 0, .run 0, .append 0 (.put [2] [2]) 1, .run 0, .run 0,
        .run 1, .run 1]) s ∧ ∀ u, s.pcs u = .idle :=
    Run.exists_of_any (by decide +kernel)
  obtain ⟨-, -, finished⟩ := drained_once run
  obtain ⟨⟨s', barrier⟩, exact⟩ := finished idle 0
  exact ⟨s, s', barrier, (exact s' barrier).2.2.2⟩

/-- A barrier reads the pointer, another thread drains that batch, a put begins the
next one, and the first barrier takes the new batch away and writes and deletes the old one again. -/
theorem not_drained_once : ∃ (trace : List (LDBStep (Fin 3))) (s s' : SharedLDB (Fin 3)),
    Run (Allowed SharedLDB.step fun _ _ => True) (openStore 512 1000000) trace s ∧ (∀ u, s.pcs u = .idle) ∧
      s.FinalBarrier 0 s' ∧ batchedMutations trace = [.put [1] [1], .put [2] [2]] ∧
      s'.writtenMutations = [.put [1] [1], .put [1] [1]] ∧ s'.written = [0, 0] ∧ s'.freed = [0, 0] := by
  obtain ⟨s, run, idle, final⟩ :
    ∃ s : SharedLDB (Fin 3), Run (Allowed SharedLDB.step fun _ _ => True) (openStore 512 1000000)
      ([LDBStep.call 0 (.mutation (.put [1] [1]) false), .run 0, .run 0, .run 0, .append 0 (.put [1] [1]) 0, .run 0,
        .run 0, .call 1 .writeBarrier, .run 1, .call 2 .writeBarrier, .run 2, .run 2, .run 2, .run 2,
        .call 0 (.mutation (.put [2] [2]) false), .run 0, .run 0, .run 0, .append 0 (.put [2] [2]) 1, .run 0, .run 0,
        .run 1, .run 1, .run 1]) s ∧ (∀ u, s.pcs u = .idle) ∧
      ((LDBStep.call 0 .writeBarrier :: [.run 0, .run 0]).foldlM
        (guarded SharedLDB.step fun _ _ => True) s).any fun s' =>
        s'.pcs 0 = .idle ∧ s'.writtenMutations = [.put [1] [1], .put [1] [1]] ∧ s'.written = [0, 0] ∧
          s'.freed = [0, 0] :=
    Run.exists_of_any (by decide +kernel)
  obtain ⟨s', barrier, returned, mutations, written, freed⟩ := Run.exists_of_any final
  exact ⟨_, s, s', run, idle, ⟨_, by simp, barrier, returned⟩, rfl, mutations, written, freed⟩

end Steps

end SharedLDB

end LSMIO
