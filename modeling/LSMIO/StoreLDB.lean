import LSMIO.Library.Runs
import LSMIO.Store

namespace LSMIO

/-- The arguments of `_batchMutation` that end up in the database; a deletion has the empty value. -/
structure Mutation where
  mType : MutationType
  key : Key
  value : Value
  deriving DecidableEq

/-- LevelDB as the map it keeps. -/
abbrev Db := Std.ExtTreeMap Key Value

namespace Mutation

def put (key : Key) (value : Value) : Mutation := ⟨.put, key, value⟩

def del (key : Key) : Mutation := ⟨.del, key, []⟩

def apply (db : Db) (m : Mutation) : Db := match m.mType with
  | .put => db.insert m.key m.value
  | .del => db.erase m.key

/-- What the key holds after the mutation. -/
def outcome (m : Mutation) : Option Value := match m.mType with
  | .put => some m.value
  | .del => none

end Mutation

/-- The effect of a batch: its mutations in order. -/
def applyAll (db : Db) (batch : List Mutation) : Db := batch.foldl Mutation.apply db

/-- What the last mutation of a key leaves there, if there is one. -/
def lastOutcome (ms : List Mutation) (key : Key) : Option (Option Value) :=
  lastValue (ms.map fun m => (m.key, m.outcome)) key

theorem getElem?_applyAll (db : Db) (ms : List Mutation) (key : Key) :
    (applyAll db ms)[key]? = (lastOutcome ms key).getD db[key]? := by
  unfold lastOutcome applyAll
  induction ms using List.reverseRecOn with
  | nil => rfl
  | append_singleton ms m ih =>
    rw [List.foldl_append, List.foldl_cons, List.foldl_nil, List.map_append, List.map_singleton, lastValue_concat]
    obtain ⟨mType, k, value⟩ := m
    by_cases here : key = k
    · subst here
      cases mType with
      | put => simp [Mutation.apply, Mutation.outcome]
      | del => simp [Mutation.apply, Mutation.outcome]
    · rw [if_neg here, ← ih]
      cases mType with
      | put => simp only [Mutation.apply, OrderedMap.getElem?_insert, if_neg (Ne.symm here)]
      | del => simp only [Mutation.apply, OrderedMap.getElem?_erase, if_neg (Ne.symm here)]

/-- The LevelDB store between two calls. The limits are `int`s, the counters unsigned 32-bit. -/
structure StoreLDB where
  maxBatchSize : Int
  maxBatchBytes : Int
  db : Db
  batch : Option (List Mutation)
  batchSize : Nat
  batchBytes : Nat

/-- A call with the values it returns: `batchOk` is the status of the write of
the pending batch, if the call makes one, `directOk` that of a direct write. -/
inductive LDBEvent
  | mutation (m : Mutation) (flush : Bool) (batchOk directOk : Bool) (ret : Bool)
  | get (key : Key) (ret : Option Value)
  | readBarrier (batchOk : Bool) (ret : Bool)
  | writeBarrier (batchOk : Bool) (ret : Bool)
  deriving DecidableEq

namespace StoreLDB

/-- An opened store with an empty batch and the contents of the database. -/
def openStore (maxBatchSize maxBatchBytes : Int) (db : Db) : StoreLDB := ⟨maxBatchSize, maxBatchBytes, db, none, 0, 0⟩

/-- An `int` compared with a `size_t` is converted to 64 bits, with an `unsigned int` to 32. -/
def converted (width : Nat) (limit : Int) : Nat := (limit % 2 ^ width).toNat

/-- The batch is taken away and written; a write that fails leaves the database as it was. -/
def stopBatch (s : StoreLDB) (batchOk : Bool) : Bool × StoreLDB := match s.batch with
  | none => (false, s)
  | some batch =>
    (batchOk, { s with batch := none, batchSize := 0, batchBytes := 0,
                       db := if batchOk then applyAll s.db batch else s.db })

def batchMutation (s : StoreLDB) (m : Mutation) (flush batchOk directOk : Bool) : Bool × StoreLDB :=
  let futureSize := (s.batchSize + 1) % 2 ^ 32
  let futureBytes := (s.batchBytes + m.value.length) % 2 ^ 32
  if flush ∨ converted 64 s.maxBatchSize ≤ m.value.length then
    let s := if s.batch.isSome then (s.stopBatch batchOk).2 else s
    (directOk, { s with db := if directOk then m.apply s.db else s.db })
  else
    let s := if s.batch.isSome ∧
        (converted 32 s.maxBatchSize ≤ futureSize ∨ converted 32 s.maxBatchBytes ≤ futureBytes) then
      (s.stopBatch batchOk).2 else s
    (true, { s with batch := some (s.batch.getD [] ++ [m])
                    batchSize := (s.batchSize + 1) % 2 ^ 32
                    batchBytes := (s.batchBytes + m.value.length) % 2 ^ 32 })

def get (s : StoreLDB) (key : Key) : Option Value := s.db[key]?

/-- The iterator from `Seek` on, up to the first key that does not start with
the one given. Its status is that of the iterator, whatever was found. -/
def getPrefix (s : StoreLDB) (key : Key) : Bool × List (Key × Value) :=
  (true, (s.db.toList.dropWhile fun entry => compare entry.1 key = .lt).takeWhile fun entry => key.isPrefixOf entry.1)

/-- Both barriers drop the status of `stopBatch`. -/
def readBarrier (s : StoreLDB) (batchOk : Bool) : Bool × StoreLDB := (true, (s.stopBatch batchOk).2)

def writeBarrier (s : StoreLDB) (batchOk : Bool) : Bool × StoreLDB := (true, (s.stopBatch batchOk).2)

/-- A call goes through when it returns what the event says. -/
def step (s : StoreLDB) : LDBEvent → Option StoreLDB
  | .mutation m flush batchOk directOk ret =>
    let (r, s') := s.batchMutation m flush batchOk directOk
    if r = ret then some s' else none
  | .get key ret => if s.get key = ret then some s else none
  | .readBarrier batchOk ret =>
    let (r, s') := s.readBarrier batchOk
    if r = ret then some s' else none
  | .writeBarrier batchOk ret =>
    let (r, s') := s.writeBarrier batchOk
    if r = ret then some s' else none

end StoreLDB

namespace LDBEvent

/-- The mutation that returned `true` with an event. -/
def mutation? : LDBEvent → Option Mutation
  | .mutation m _ _ _ true => some m
  | _ => none

/-- The write of the pending batch goes through, if the call makes one. -/
def BatchOk (s : StoreLDB) : LDBEvent → Prop
  | .mutation _ _ batchOk _ _ | .readBarrier batchOk _ | .writeBarrier batchOk _ => s.batch.isSome → batchOk = true
  | .get .. => True

instance : DecidableRel BatchOk
  | s, .mutation _ _ batchOk _ _ | s, .readBarrier batchOk _ | s, .writeBarrier batchOk _ =>
    inferInstanceAs (Decidable (s.batch.isSome → batchOk = true))
  | _, .get .. => .isTrue trivial

end LDBEvent

/-- The mutations that returned `true`, oldest first. -/
def ldbMutations (trace : List LDBEvent) : List Mutation := trace.filterMap LDBEvent.mutation?

@[simp] theorem ldbMutations_append (earlier later : List LDBEvent) :
    ldbMutations (earlier ++ later) = ldbMutations earlier ++ ldbMutations later := List.filterMap_append

theorem ldbMutations_singleton (e : LDBEvent) : ldbMutations [e] = e.mutation?.toList := by
  rw [ldbMutations, List.filterMap_cons]
  cases e.mutation? <;> rfl

namespace StoreLDB

variable {first s s' : StoreLDB}

/-- The pending mutations, oldest first. -/
def pending (s : StoreLDB) : List Mutation := s.batch.getD []

/-- The database holds the mutations `applied`, and the batch those after them. -/
structure Batched (first : StoreLDB) (trace : List LDBEvent) (s : StoreLDB) (applied : List Mutation) : Prop where
  db : s.db = applyAll first.db applied
  all : ldbMutations trace = applied ++ s.pending

/-- After the batch has been written there is none, and the database has its mutations. -/
theorem stopBatch_ok {batchOk : Bool} (fine : s.batch.isSome → batchOk = true) :
    (s.stopBatch batchOk).2.batch = none ∧ (s.stopBatch batchOk).2.db = applyAll s.db s.pending := by
  unfold stopBatch pending
  cases batch : s.batch with
  | none => exact ⟨batch, rfl⟩
  | some ms => simp [fine (by simp [batch])]

theorem Batched.stopBatch {trace : List LDBEvent} {applied : List Mutation} {batchOk : Bool}
    (batched : Batched first trace s applied) (fine : s.batch.isSome → batchOk = true) :
    Batched first trace (s.stopBatch batchOk).2 (ldbMutations trace) := by
  obtain ⟨none, db⟩ := stopBatch_ok fine
  refine ⟨?_, by simp [pending, none]⟩
  rw [db, batched.db, batched.all, applyAll, applyAll, applyAll, List.foldl_append]

/-- What the database holds is the front of all mutations. -/
theorem Batched.front {trace : List LDBEvent} {applied : List Mutation} (batched : Batched first trace s applied) :
    applied <+: ldbMutations trace :=
  ⟨_, batched.all.symm⟩

/-- The two ways of a mutation: written at once behind the pending batch, or appended to it. -/
theorem Batched.mutation {trace : List LDBEvent} {applied : List Mutation} {m : Mutation}
    {flush batchOk directOk : Bool} (batched : Batched first trace s applied)
    (fine : s.batch.isSome → batchOk = true) :
    ∃ applied', applied <+: applied' ∧ Batched first
      (trace ++ [.mutation m flush batchOk directOk (s.batchMutation m flush batchOk directOk).1])
      (s.batchMutation m flush batchOk directOk).2 applied' := by
  unfold batchMutation
  split
  next =>
    have drained : Batched first trace (if s.batch.isSome then (s.stopBatch batchOk).2 else s) (ldbMutations trace) ∧
        (if s.batch.isSome then (s.stopBatch batchOk).2 else s).batch = none := by
      split
      next => exact ⟨batched.stopBatch fine, (stopBatch_ok fine).1⟩
      next empty =>
        have none : s.batch = none := by simpa using empty
        have same : ldbMutations trace = applied := by simp [batched.all, pending, none]
        exact ⟨same ▸ batched, none⟩
    obtain ⟨⟨db, -⟩, none⟩ := drained
    refine ⟨ldbMutations trace ++ (if directOk then [m] else []), batched.front.trans (List.prefix_append ..), ?_, ?_⟩
    · simp only [db, applyAll, List.foldl_append]
      cases directOk <;> rfl
    · rw [ldbMutations_append, ldbMutations_singleton]
      simp only [pending, none]
      cases directOk <;> simp [LDBEvent.mutation?]
  next =>
    have appended : ∀ {middle : StoreLDB} {before : List Mutation}, Batched first trace middle before →
        Batched first (trace ++ [.mutation m flush batchOk directOk true])
          { middle with batch := some (middle.batch.getD [] ++ [m])
                        batchSize := (middle.batchSize + 1) % 2 ^ 32
                        batchBytes := (middle.batchBytes + m.value.length) % 2 ^ 32 } before := by
      intro middle before kept
      refine ⟨kept.db, ?_⟩
      rw [ldbMutations_append, ldbMutations_singleton, kept.all]
      simp [pending, LDBEvent.mutation?]
    simp only
    split
    · exact ⟨_, batched.front, appended (batched.stopBatch fine)⟩
    · exact ⟨_, List.prefix_refl _, appended batched⟩

theorem Batched.silent {trace : List LDBEvent} {applied : List Mutation} {e : LDBEvent}
    (batched : Batched first trace s applied) (silent : e.mutation? = none) : Batched first (trace ++ [e]) s applied :=
  ⟨batched.db, by rw [ldbMutations_append, ldbMutations_singleton, silent, batched.all]; simp⟩

theorem Batched.step {trace : List LDBEvent} {applied : List Mutation} {e : LDBEvent}
    (batched : Batched first trace s applied) (fine : e.BatchOk s) (taken : s.step e = some s') :
    ∃ applied', applied <+: applied' ∧ Batched first (trace ++ [e]) s' applied' := by
  cases e with
  | mutation m flush batchOk directOk ret =>
    simp only [StoreLDB.step] at taken
    split at taken
    next same =>
      cases taken
      subst same
      exact batched.mutation fine
    next => cases taken
  | get key ret =>
    simp only [StoreLDB.step] at taken
    split at taken
    next =>
      cases taken
      exact ⟨applied, List.prefix_refl _, batched.silent rfl⟩
    next => cases taken
  | readBarrier batchOk ret =>
    cases ret with
    | true =>
      cases taken
      exact ⟨_, batched.front, (batched.stopBatch fine).silent rfl⟩
    | false => cases taken
  | writeBarrier batchOk ret =>
    cases ret with
    | true =>
      cases taken
      exact ⟨_, batched.front, (batched.stopBatch fine).silent rfl⟩
    | false => cases taken

/-- Whatever further calls are made, what the database holds only grows. -/
theorem Batched.run {ok : StoreLDB → LDBEvent → Prop} {trace later : List LDBEvent} {applied : List Mutation}
    (batched : Batched first trace s applied) (fine : ∀ s e, ok s e → e.BatchOk s)
    (run : Run (Allowed StoreLDB.step ok) s later s') :
    ∃ applied', applied <+: applied' ∧ Batched first (trace ++ later) s' applied' := by
  refine run.invariant (P := fun later s' => ∃ applied', applied <+: applied' ∧
    Batched first (trace ++ later) s' applied')
    ⟨applied, List.prefix_refl _, by rwa [List.append_nil]⟩ ?_
  rintro later middle e next - ⟨between, grown, batched⟩ ⟨allowed, taken⟩
  obtain ⟨applied', grown', batched'⟩ := batched.step (fine middle e allowed) taken
  exact ⟨applied', grown.trans grown', by rwa [← List.append_assoc]⟩

/-- The invariant of the batch over all runs in which every batch write goes through. -/
theorem Batched.of_run {ok : StoreLDB → LDBEvent → Prop} {trace : List LDBEvent} (fine : ∀ s e, ok s e → e.BatchOk s)
    (empty : first.batch = none) (run : Run (Allowed StoreLDB.step ok) first trace s) :
    ∃ applied, Batched first trace s applied := by
  have start : Batched first [] first [] := ⟨rfl, by simp [pending, empty, ldbMutations]⟩
  obtain ⟨applied, -, batched⟩ := start.run fine run
  exact ⟨applied, batched⟩

end StoreLDB

end LSMIO
