import LSMIO.StoreLDB
import LSMIO.WriteBarrier

namespace LSMIO

/-- In every run with allowed steps, a barrier that returns `true` leaves the
mutations before it readable from the tables: each key that is left alone
since the barrier began reads back as its last mutation. -/
def State.BarrierPersists (ok : State → Event → Prop) : Prop :=
  ∀ (cfg : Config) (dir : Directory) (entries : List (FileName × Bytes)) (before during : List Event) (t : Tid)
    (s : State), Run (Allowed (State.step cfg) ok) (State.openStore cfg dir entries)
      (before ++ [.call t .writeBarrier] ++ during ++ [.ret t .writeBarrier (.bool true)]) s →
    ∀ key stored, lastValue (mutations before) key = some stored →
      (∀ value, (key, value) ∉ mutations during) → s.sstableGet key = some stored

/-- In every run with allowed steps, a barrier that returns `true` leaves all
mutations that returned `true` before it applied to the database. -/
def StoreLDB.BarrierPersists (ok : StoreLDB → LDBEvent → Prop) : Prop :=
  ∀ (maxBatchSize maxBatchBytes : Int) (db : Db) (trace : List LDBEvent) (batchOk : Bool) (s : StoreLDB),
    Run (Allowed StoreLDB.step ok) (StoreLDB.openStore maxBatchSize maxBatchBytes db)
      (trace ++ [.writeBarrier batchOk true]) s →
    s.db = applyAll db (ldbMutations trace)

namespace StoreLDB

/-- After a barrier the whole batch is in the database. -/
theorem Batched.writeBarrier {first s s' : StoreLDB} {trace : List LDBEvent} {applied : List Mutation} {batchOk : Bool}
    (batched : Batched first trace s applied) (fine : s.batch.isSome → batchOk = true)
    (taken : s.step (.writeBarrier batchOk true) = some s') : s'.db = applyAll first.db (ldbMutations trace) := by
  cases taken
  exact (batched.stopBatch fine).db

theorem barrierPersists_of_batchOk {ok : StoreLDB → LDBEvent → Prop} (fine : ∀ s e, ok s e → e.BatchOk s) :
    BarrierPersists ok := by
  intro maxBatchSize maxBatchBytes db trace batchOk s run
  obtain ⟨middle, front, allowed, taken⟩ := run.snoc_inv
  obtain ⟨applied, batched⟩ := Batched.of_run fine rfl front
  exact batched.writeBarrier (fine _ _ allowed) taken

end StoreLDB

/-- Barriers persist what they report in every run in which no flush loses its
memtable, every mutation fits the record format, and every write of a pending batch goes through. -/
theorem barriers_persist {ok : State → Event → Prop} {ldbOk : StoreLDB → LDBEvent → Prop}
    (fits : ∀ s e, ok s e → e.intact = true ∧ ∀ entry ∈ e.mutation, Short entry)
    (fine : ∀ s e, ldbOk s e → e.BatchOk s) : State.BarrierPersists ok ∧ StoreLDB.BarrierPersists ldbOk := by
  refine ⟨?_, StoreLDB.barrierPersists_of_batchOk fine⟩
  intro cfg dir entries before during t s run key stored last untouched
  obtain ⟨flushed, inv, covers, inOrder⟩ := State.barrier_log (fun s e allowed => (fits s e allowed).1) run
  have short := State.mutations_short (fun s e allowed => (fits s e allowed).2) run
  rw [mutations_append] at inOrder
  rw [inv.sstableGet_eq short, lastValue_of_between covers inOrder untouched, last]
  rfl

/-- A put, and a barrier after which it is read back, in both stores. -/
theorem barriers_persist_once :
    (∃ s : State, s.sstableGet [1] = some [7]) ∧ ∃ s : StoreLDB, s.db = applyAll ∅ [.put [1] [7]] := by
  obtain ⟨s, run⟩ := State.exists_published_short
  obtain ⟨s', run', -⟩ : ∃ s, Run (Allowed StoreLDB.step fun s e => e.BatchOk s) (StoreLDB.openStore 512 1000 ∅)
      ([LDBEvent.mutation (.put [1] [7]) false true true true] ++ [LDBEvent.writeBarrier true true]) s ∧ True :=
    Run.exists_of_any (by decide +kernel)
  obtain ⟨native, ldb⟩ := barriers_persist (fun _ _ allowed => allowed) fun _ _ allowed => allowed
  exact ⟨⟨s, native _ _ _ _ _ _ _ run [1] [7] rfl fun _ => List.not_mem_nil⟩, s', ldb _ _ _ _ _ _ run'⟩

/-- A file that cannot be acquired costs the memtable, a write that fails costs
the batch, and both barriers return `true`. -/
theorem barriers_lose : ¬ State.BarrierPersists (fun _ e => ∀ entry ∈ e.mutation, Short entry) ∧
    ¬ StoreLDB.BarrierPersists fun _ _ => True := by
  constructor
  · intro always
    obtain ⟨s, run, lost⟩ : ∃ s, Run (Allowed (State.step ⟨100, 4, 2, 0⟩) fun _ e => ∀ entry ∈ e.mutation, Short entry)
        (State.openStore ⟨100, 4, 2, 0⟩ ∅ [])
        ([Event.call 0 (.put [1] [7] false), .ret 0 (.put [1] [7] false) (.bool true)] ++
          [Event.call 1 .writeBarrier] ++ [Event.pushed 1, .pool .check, .pool (.create true true), .pool .insert,
            .flush .pop, .flush (.acquire false), .flush .finish] ++ [Event.ret 1 .writeBarrier (.bool true)]) s ∧
        s.sstableGet [1] = none := Run.exists_of_any (by decide +kernel)
    have kept := always _ _ _ _ _ _ _ run [1] [7] rfl fun _ => List.not_mem_nil
    rw [lost] at kept
    cases kept
  · intro always
    obtain ⟨s, run, lost⟩ : ∃ s, Run (Allowed StoreLDB.step fun _ _ => True) (StoreLDB.openStore 512 1000 ∅)
        ([LDBEvent.mutation (.put [1] [7]) false true true true] ++ [LDBEvent.writeBarrier false true]) s ∧
        s.db[([1] : Key)]? = none := Run.exists_of_any (by decide +kernel)
    have kept := always _ _ _ _ _ _ run
    rw [kept, getElem?_applyAll] at lost
    cases lost

end LSMIO
