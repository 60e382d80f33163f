import LSMIO.StoreLDB

namespace LSMIO

namespace LDBEvent

/-- The mutation that an event calls for. -/
def issued : LDBEvent → Option Mutation
  | .mutation m _ _ _ _ => some m
  | _ => none

/-- Every write of the database that the call makes goes through. -/
def WritesOk : LDBEvent → Prop
  | .mutation _ _ batchOk directOk _ => batchOk = true ∧ directOk = true
  | .readBarrier batchOk _ | .writeBarrier batchOk _ => batchOk = true
  | .get .. => True

instance : DecidablePred WritesOk
  | .mutation _ _ batchOk directOk _ => inferInstanceAs (Decidable (batchOk = true ∧ directOk = true))
  | .readBarrier batchOk _ | .writeBarrier batchOk _ => inferInstanceAs (Decidable (batchOk = true))
  | .get .. => .isTrue trivial

/-- The calls after which nothing may be pending. -/
def drains : LDBEvent → Bool
  | .mutation _ flush _ _ _ => flush
  | .readBarrier .. | .writeBarrier .. => true
  | .get .. => false

theorem WritesOk.batchOk {e : LDBEvent} (fine : e.WritesOk) (s : StoreLDB) : e.BatchOk s := by
  cases e with
  | mutation m flush batchOk directOk ret => exact fun _ => fine.1
  | get key ret => trivial
  | readBarrier batchOk ret => exact fun _ => fine
  | writeBarrier batchOk ret => exact fun _ => fine

end LDBEvent

/-- The mutations called for in a trace, oldest first. -/
def issuedMutations (trace : List LDBEvent) : List Mutation := trace.filterMap LDBEvent.issued

namespace StoreLDB

variable {first s s' : StoreLDB} {trace : List LDBEvent} {e : LDBEvent}

/-- `close` writes the pending batch before it deletes the database. -/
def close (s : StoreLDB) (batchOk : Bool) : StoreLDB := (s.writeBarrier batchOk).2

theorem batchMutation_returns (s : StoreLDB) (m : Mutation) (flush batchOk : Bool) :
    (s.batchMutation m flush batchOk true).1 = true := by
  unfold batchMutation
  split <;> rfl

/-- A mutation whose writes go through is added to those of the trace. -/
theorem Batched.mutation_ok {applied : List Mutation} (batched : Batched first trace s applied) (m : Mutation)
    (flush : Bool) :
    ∃ trace' applied', Batched first trace' (s.batchMutation m flush true true).2 applied' ∧
      ldbMutations trace' = ldbMutations trace ++ [m] := by
  obtain ⟨applied', -, batched'⟩ := Batched.mutation batched fun _ => rfl
  refine ⟨_, applied', batched', ?_⟩
  rw [ldbMutations_append, ldbMutations_singleton, batchMutation_returns]
  rfl

/-- With its writes going through, a mutation returns `true`. -/
theorem mutation?_eq_issued (fine : e.WritesOk) (taken : s.step e = some s') : e.mutation? = e.issued := by
  cases e with
  | mutation m flush batchOk directOk ret =>
    obtain ⟨-, rfl⟩ := fine
    have returns : (s.batchMutation m flush batchOk true).1 = ret := by
      simp only [step] at taken
      split at taken
      next same => exact same
      next => cases taken
    rw [← returns, batchMutation_returns]
    rfl
  | _ => rfl

theorem ldbMutations_eq_issued (run : Run (Allowed step fun _ e => e.WritesOk) first trace s) :
    ldbMutations trace = issuedMutations trace := by
  refine run.invariant (P := fun trace _ => ldbMutations trace = issuedMutations trace) rfl ?_
  rintro trace s e s' - same ⟨fine, taken⟩
  rw [ldbMutations, issuedMutations, List.filterMap_snoc, List.filterMap_snoc, mutation?_eq_issued fine taken]
  exact congrArg (· ++ _) same

/-- A flushing mutation and a barrier leave no batch behind. -/
theorem batch_of_drains (fine : e.WritesOk) (drains : e.drains = true) (taken : s.step e = some s') :
    s'.batch = none := by
  cases e with
  | mutation m flush batchOk directOk ret =>
    obtain ⟨rfl, rfl⟩ := fine
    have flushing : flush = true := drains
    subst flushing
    have written : (s.batchMutation m true true true).2.batch = none := by
      simp only [batchMutation, true_or, if_true]
      split
      next => exact (stopBatch_ok fun _ => rfl).1
      next empty => simpa using empty
    simp only [step] at taken
    split at taken
    · cases taken
      exact written
    · cases taken
  | get key ret => cases drains
  | readBarrier batchOk ret =>
    have batchOk : batchOk = true := fine
    cases ret with
    | true =>
      cases taken
      exact (stopBatch_ok fun _ => batchOk).1
    | false => cases taken
  | writeBarrier batchOk ret =>
    have batchOk : batchOk = true := fine
    cases ret with
    | true =>
      cases taken
      exact (stopBatch_ok fun _ => batchOk).1
    | false => cases taken

/-- With every write going through, the database holds a prefix of the mutations
issued and the batch the rest, in order; the prefix only grows, it is all of them after a
flushing mutation, a barrier and `close`, and `get` shows exactly the prefix. -/
theorem batching_prefixConsistent {maxBatchSize maxBatchBytes : Int} {db : Db}
    (run : Run (Allowed step fun _ e => e.WritesOk) (openStore maxBatchSize maxBatchBytes db) trace s) :
    ∃ applied, issuedMutations trace = applied ++ s.pending ∧ s.db = applyAll db applied ∧
      (∀ key, s.get key = (lastOutcome applied key).getD db[key]?) ∧
      (∀ later s', Run (Allowed step fun _ e => e.WritesOk) s later s' →
        ∃ more, issuedMutations (trace ++ later) = applied ++ more ++ s'.pending ∧
        s'.db = applyAll db (applied ++ more)) ∧
      (∀ e s', e.WritesOk → s.step e = some s' → e.drains = true →
        s'.pending = [] ∧ s'.db = applyAll db (issuedMutations (trace ++ [e]))) ∧
      (s.close true).pending = [] ∧ (s.close true).db = applyAll db (issuedMutations trace) := by
  have fine : ∀ (s : StoreLDB) (e : LDBEvent), e.WritesOk → e.BatchOk s := fun s e ok => ok.batchOk s
  obtain ⟨applied, batched⟩ := Batched.of_run fine rfl run
  have all := ldbMutations_eq_issued run
  have continued : ∀ later s', Run (Allowed step fun _ e => e.WritesOk) s later s' → ∃ more,
      issuedMutations (trace ++ later) = applied ++ more ++ s'.pending ∧ s'.db = applyAll db (applied ++ more) := by
    intro later s' rest
    obtain ⟨_, ⟨more, rfl⟩, batched'⟩ := batched.run fine rest
    exact ⟨more, by rw [← ldbMutations_eq_issued (run.append rest), batched'.all], batched'.db⟩
  refine ⟨applied, by rw [← all, batched.all], batched.db, fun key => ?_, continued,
    fun e s' ok taken drains => ?_, ?_, ?_⟩
  · rw [get, batched.db, getElem?_applyAll]
    rfl
  · have empty : s'.pending = [] := by rw [pending, batch_of_drains ok drains taken]; rfl
    obtain ⟨more, whole, applied'⟩ := continued _ s' (Run.step .start ⟨ok, taken⟩)
    rw [empty, List.append_nil] at whole
    exact ⟨empty, by rw [applied', ← whole]; rfl⟩
  · rw [pending, close, writeBarrier, (stopBatch_ok fun _ => rfl).1]
    rfl
  · rw [← all]
    exact (batched.stopBatch fun _ => rfl).db

/-- A deferred put that `get` does not see yet, and that `close` writes. -/
theorem batching_prefixConsistent_deferred : ∃ s : StoreLDB, s.get [1] = none ∧
    (s.close true).db = applyAll ∅ [.put [1] [7]] := by
  obtain ⟨s, run, unseen⟩ : ∃ s, Run (Allowed step fun _ e => e.WritesOk) (openStore 512 1000 ∅)
      [.mutation (.put [1] [7]) false true true true, .get [1] none] s ∧ s.get [1] = none :=
    Run.exists_of_any (by decide +kernel)
  obtain ⟨applied, -, -, -, -, -, -, closed⟩ := batching_prefixConsistent run
  exact ⟨s, unseen, closed⟩

end StoreLDB

end LSMIO
