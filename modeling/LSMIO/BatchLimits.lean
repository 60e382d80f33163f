import LSMIO.StoreLDB
import Mathlib.Tactic.Common

namespace LSMIO

/-- A mutation that may be deferred, with the outcomes of the writes it may make. -/
structure DeferredCall where
  m : Mutation
  batchOk : Bool
  directOk : Bool
  deriving DecidableEq

namespace StoreLDB

/-- What a mutation has LevelDB write: the pending batch, itself, or nothing, with the outcomes. -/
def writes (s : StoreLDB) (m : Mutation) (flush batchOk directOk : Bool) : List (List Mutation × Bool) :=
  let futureSize := (s.batchSize + 1) % 2 ^ 32
  let futureBytes := (s.batchBytes + m.value.length) % 2 ^ 32
  if flush ∨ converted 64 s.maxBatchSize ≤ m.value.length then
    (s.batch.map fun batch => (batch, batchOk)).toList ++ [([m], directOk)]
  else if converted 32 s.maxBatchSize ≤ futureSize ∨ converted 32 s.maxBatchBytes ≤ futureBytes then
    (s.batch.map fun batch => (batch, batchOk)).toList
  else []

/-- The value bytes of the pending batch. -/
def pendingBytes (s : StoreLDB) : Nat := (s.pending.map fun m => m.value.length).sum

/-- The pending batch reaches a limit together with the mutation. -/
def Reaches (s : StoreLDB) (m : Mutation) : Prop :=
  s.maxBatchSize ≤ (s.pending.length : Int) + 1 ∨ s.maxBatchBytes ≤ (s.pendingBytes : Int) + m.value.length

instance (s : StoreLDB) : DecidablePred s.Reaches := fun _ => inferInstanceAs (Decidable (_ ∨ _))

/-- The pending batch is below the limits, and the counters count it. -/
structure WithinLimits (s : StoreLDB) : Prop where
  count : (s.pending.length : Int) ≤ max 1 (s.maxBatchSize - 1)
  bytes : (s.pendingBytes : Int) < s.maxBatchBytes
  size : s.batchSize = s.pending.length
  sizeBytes : s.batchBytes = s.pendingBytes

def called (s : StoreLDB) (c : DeferredCall) : StoreLDB := (s.batchMutation c.m false c.batchOk c.directOk).2

def after (s : StoreLDB) (calls : List DeferredCall) : StoreLDB := calls.foldl called s

/-- Each mutation of a history makes a write only where it reaches a limit, and leaves the batch below the limits. -/
def Defers (first : StoreLDB) (calls : List DeferredCall) : Prop :=
  ∀ earlier c later, calls = earlier ++ c :: later →
    ((first.after earlier).writes c.m false c.batchOk c.directOk ≠ [] → (first.after earlier).Reaches c.m) ∧
      (first.after (earlier ++ [c])).WithinLimits

variable {s : StoreLDB} {m : Mutation} {flush batchOk directOk : Bool}

/-- The database changes by the writes. -/
theorem db_batchMutation : (s.batchMutation m flush batchOk directOk).2.db =
    (s.writes m flush batchOk directOk).foldl (fun db write => if write.2 then applyAll db write.1 else db) s.db := by
  by_cases direct : flush = true ∨ converted 64 s.maxBatchSize ≤ m.value.length
  · simp only [batchMutation, writes, if_pos direct]
    cases batch : s.batch <;> simp [stopBatch, batch, applyAll]
  · simp only [batchMutation, writes, if_neg direct]
    by_cases full : converted 32 s.maxBatchSize ≤ (s.batchSize + 1) % 2 ^ 32 ∨
        converted 32 s.maxBatchBytes ≤ (s.batchBytes + m.value.length) % 2 ^ 32
    · simp only [full, and_true, if_true]
      cases batch : s.batch <;> simp [stopBatch, batch]
    · simp only [full, and_false, if_false, List.foldl_nil]

/-- The limits that the constructor may be given. -/
structure Limits (s : StoreLDB) : Prop where
  size : 0 < s.maxBatchSize
  size' : s.maxBatchSize < 2 ^ 31
  bytes : 0 < s.maxBatchBytes
  bytes' : s.maxBatchBytes < 2 ^ 31

theorem converted_eq {width : Nat} (wide : 31 ≤ width) {limit : Int} (positive : 0 < limit) (small : limit < 2 ^ 31) :
    (converted width limit : Int) = limit := by
  have power : (2 : Int) ^ 31 ≤ 2 ^ width := pow_le_pow_right₀ (by decide) wide
  rw [converted, Int.emod_eq_of_lt positive.le (small.trans_le power), Int.toNat_of_nonneg positive.le]

/-- The mutation goes to the back of the batch, and the counters count it. -/
def appended (s : StoreLDB) (m : Mutation) : StoreLDB :=
  { s with batch := some (s.batch.getD [] ++ [m])
           batchSize := (s.batchSize + 1) % 2 ^ 32
           batchBytes := (s.batchBytes + m.value.length) % 2 ^ 32 }

/-- Without a batch `stopBatch` changes nothing, so the tests for one do not matter. -/
theorem batchMutation_eq : (s.batchMutation m flush batchOk directOk).2 =
    if flush ∨ converted 64 s.maxBatchSize ≤ m.value.length then
      { (s.stopBatch batchOk).2 with
        db := if directOk then m.apply (s.stopBatch batchOk).2.db else (s.stopBatch batchOk).2.db }
    else if converted 32 s.maxBatchSize ≤ (s.batchSize + 1) % 2 ^ 32 ∨
        converted 32 s.maxBatchBytes ≤ (s.batchBytes + m.value.length) % 2 ^ 32 then
      (s.stopBatch batchOk).2.appended m
    else s.appended m := by
  have none : s.batch.isSome ≠ true → (s.stopBatch batchOk).2 = s := fun empty => by
    rw [stopBatch, Option.not_isSome_iff_eq_none.mp empty]
  unfold batchMutation
  split
  · by_cases some : s.batch.isSome = true
    · simp only [if_pos some]
    · simp only [if_neg some, none some]
  · by_cases some : s.batch.isSome = true
    · simp only [some, true_and]
      split <;> rfl
    · simp only [some, Bool.false_eq_true, false_and, if_false, none some]
      split <;> rfl

theorem stopBatch_limits : (s.stopBatch batchOk).2.maxBatchSize = s.maxBatchSize ∧
    (s.stopBatch batchOk).2.maxBatchBytes = s.maxBatchBytes := by
  unfold stopBatch
  split <;> exact ⟨rfl, rfl⟩

theorem called_limits (c : DeferredCall) : (s.called c).maxBatchSize = s.maxBatchSize ∧
    (s.called c).maxBatchBytes = s.maxBatchBytes := by
  rw [called, batchMutation_eq]
  split
  · exact stopBatch_limits
  · split
    · exact stopBatch_limits
    · exact ⟨rfl, rfl⟩

/-- What is compared in a mutation of a batch below the limits. -/
theorem WithinLimits.compared (within : WithinLimits s) (limits : Limits s)
    (small : (m.value.length : Int) < s.maxBatchBytes) :
    (converted 64 s.maxBatchSize ≤ m.value.length ↔ s.maxBatchSize ≤ m.value.length) ∧
      (converted 32 s.maxBatchSize ≤ (s.batchSize + 1) % 2 ^ 32 ∨
        converted 32 s.maxBatchBytes ≤ (s.batchBytes + m.value.length) % 2 ^ 32 ↔ s.Reaches m) := by
  obtain ⟨size, size', bytes, bytes'⟩ := limits
  have size64 := converted_eq (show 31 ≤ 64 by decide) size size'
  have size32 := converted_eq (show 31 ≤ 32 by decide) size size'
  have bytes32 := converted_eq (show 31 ≤ 32 by decide) bytes bytes'
  have count := within.count
  have sum := within.bytes
  rw [within.size, within.sizeBytes, Reaches]
  omega

/-- After `stopBatch` nothing is pending. -/
theorem WithinLimits.stopped (within : WithinLimits s) : (s.stopBatch batchOk).2.batch = none ∧
    (s.stopBatch batchOk).2.batchSize = 0 ∧ (s.stopBatch batchOk).2.batchBytes = 0 := by
  have size := within.size
  have sizeBytes := within.sizeBytes
  rw [pending] at size
  rw [pendingBytes, pending] at sizeBytes
  unfold stopBatch
  cases batch : s.batch with
  | none => simp [batch, size, sizeBytes]
  | some ms => exact ⟨rfl, rfl, rfl⟩

theorem pending_appended (s : StoreLDB) (m : Mutation) : (s.appended m).pending = s.pending ++ [m] := rfl

/-- A batch that does not reach a limit with the mutation is below the limits with it. -/
theorem withinLimits_appended (limits : Limits s) (size : s.batchSize = s.pending.length)
    (sizeBytes : s.batchBytes = s.pendingBytes)
    (few : s.pending.length = 0 ∨ (s.pending.length : Int) + 1 < s.maxBatchSize)
    (light : (s.pendingBytes : Int) + m.value.length < s.maxBatchBytes) : WithinLimits (s.appended m) := by
  obtain ⟨positive, size', bytes, bytes'⟩ := limits
  have sum : (s.appended m).pendingBytes = s.pendingBytes + m.value.length := by
    simp [pendingBytes, pending_appended]
  have length : (s.appended m).pending.length = s.pending.length + 1 := by
    rw [pending_appended, List.length_append, List.length_singleton]
  refine ⟨?_, ?_, ?_, ?_⟩
  · rw [length]
    change ((s.pending.length + 1 : Nat) : Int) ≤ max 1 (s.maxBatchSize - 1)
    omega
  · rw [sum]
    change ((s.pendingBytes + m.value.length : Nat) : Int) < s.maxBatchBytes
    omega
  · rw [length, ← size]
    change (s.batchSize + 1) % 2 ^ 32 = s.batchSize + 1
    omega
  · rw [sum, ← sizeBytes]
    change (s.batchBytes + m.value.length) % 2 ^ 32 = s.batchBytes + m.value.length
    omega

theorem WithinLimits.called {c : DeferredCall} (within : WithinLimits s) (limits : Limits s)
    (small : (c.m.value.length : Int) < s.maxBatchBytes) : WithinLimits (s.called c) := by
  obtain ⟨direct, full⟩ := within.compared limits small
  obtain ⟨none, size, sizeBytes⟩ := @WithinLimits.stopped s c.batchOk within
  obtain ⟨sameSize, sameBytes⟩ := @stopBatch_limits s c.batchOk
  have empty : (s.stopBatch c.batchOk).2.pending = [] := by rw [pending, none]; rfl
  have drained : (s.stopBatch c.batchOk).2.pendingBytes = 0 := by rw [pendingBytes, empty]; rfl
  have positive := limits.bytes
  rw [StoreLDB.called, batchMutation_eq]
  split
  next =>
    refine ⟨?_, ?_, ?_, ?_⟩
    · change ((s.stopBatch c.batchOk).2.pending.length : Int) ≤ max 1 ((s.stopBatch c.batchOk).2.maxBatchSize - 1)
      rw [empty, List.length_nil]
      omega
    · change ((s.stopBatch c.batchOk).2.pendingBytes : Int) < (s.stopBatch c.batchOk).2.maxBatchBytes
      rw [drained, sameBytes]
      exact positive
    · change (s.stopBatch c.batchOk).2.batchSize = (s.stopBatch c.batchOk).2.pending.length
      rw [size, empty, List.length_nil]
    · exact sizeBytes.trans drained.symm
  next =>
    split
    next =>
      have limits' : Limits (s.stopBatch c.batchOk).2 :=
        ⟨sameSize ▸ limits.size, sameSize ▸ limits.size', sameBytes ▸ limits.bytes, sameBytes ▸ limits.bytes'⟩
      refine withinLimits_appended limits' (by rw [size, empty, List.length_nil]) (sizeBytes.trans drained.symm)
        (.inl (by rw [empty, List.length_nil])) ?_
      rw [drained, sameBytes]
      simpa using small
    next reaches =>
      rw [full, Reaches, not_or, not_le, not_le] at reaches
      exact withinLimits_appended limits within.size within.sizeBytes (.inr reaches.1) reaches.2

theorem called_after (s : StoreLDB) (calls : List DeferredCall) (c : DeferredCall) :
    s.after (calls ++ [c]) = (s.after calls).called c := by
  rw [after, List.foldl_append, List.foldl_cons, List.foldl_nil]
  rfl

/-- Whatever is called, the batch stays below the limits. -/
theorem withinLimits_after {first : StoreLDB} {calls : List DeferredCall} (within : WithinLimits first)
    (limits : Limits first) (small : ∀ c ∈ calls, (c.m.value.length : Int) < first.maxBatchBytes) :
    WithinLimits (first.after calls) ∧ Limits (first.after calls) ∧
      (first.after calls).maxBatchBytes = first.maxBatchBytes ∧
      (first.after calls).maxBatchSize = first.maxBatchSize := by
  induction calls using List.reverseRecOn with
  | nil => exact ⟨within, limits, rfl, rfl⟩
  | append_singleton calls c ih =>
    obtain ⟨within', limits', bytes, size⟩ := ih fun other member => small other (List.mem_append_left _ member)
    have smallHere : (c.m.value.length : Int) < (first.after calls).maxBatchBytes := by
      rw [bytes]
      exact small c (by simp)
    obtain ⟨sameSize, sameBytes⟩ := called_limits (s := first.after calls) c
    rw [called_after]
    exact ⟨within'.called limits' smallHere,
      ⟨sameSize ▸ limits'.size, sameSize ▸ limits'.size', sameBytes ▸ limits'.bytes, sameBytes ▸ limits'.bytes'⟩,
      sameBytes.trans bytes, sameSize.trans size⟩

/-- A mutation makes a write only at a limit exactly when it is shorter than the count limit, or reaches a limit. -/
theorem WithinLimits.writes_iff (within : WithinLimits s) (limits : Limits s)
    (small : (m.value.length : Int) < s.maxBatchBytes) :
    (s.writes m false batchOk directOk ≠ [] → s.Reaches m) ↔ (m.value.length : Int) < s.maxBatchSize ∨ s.Reaches m := by
  obtain ⟨direct, full⟩ := within.compared limits small
  simp only [writes, Bool.false_eq_true, false_or, direct, full]
  by_cases long : s.maxBatchSize ≤ m.value.length
  · simp [long, not_lt.mpr long]
  · by_cases reaches : s.Reaches m
    · simp [reaches]
    · simp [long, reaches, not_le.mp long]

/-- A history of mutations is written by the limits alone exactly when each has fewer value bytes
than the batch may have mutations, or reaches a limit. -/
theorem defers_iff {maxBatchSize maxBatchBytes : Int} (size : 0 < maxBatchSize) (size' : maxBatchSize < 2 ^ 31)
    (bytes : 0 < maxBatchBytes) (bytes' : maxBatchBytes < 2 ^ 31) (db : Db) (calls : List DeferredCall)
    (small : ∀ c ∈ calls, (c.m.value.length : Int) < maxBatchBytes) :
    Defers (openStore maxBatchSize maxBatchBytes db) calls ↔ ∀ earlier c later, calls = earlier ++ c :: later →
      (c.m.value.length : Int) < maxBatchSize ∨
        ((openStore maxBatchSize maxBatchBytes db).after earlier).Reaches c.m := by
  have limits : Limits (openStore maxBatchSize maxBatchBytes db) := ⟨size, size', bytes, bytes'⟩
  have within : WithinLimits (openStore maxBatchSize maxBatchBytes db) := by
    refine ⟨?_, bytes, rfl, rfl⟩
    change (0 : Int) ≤ max 1 (maxBatchSize - 1)
    omega
  refine forall₄_congr fun earlier c later whole => ?_
  have smallBefore : ∀ other ∈ earlier ++ [c], (other.m.value.length : Int) < maxBatchBytes := fun other member =>
    small other (by rw [whole]; exact (List.mem_append.mp member).elim (List.mem_append_left _) fun last =>
      List.mem_append_right _ (List.mem_singleton.mp last ▸ List.mem_cons_self ..))
  obtain ⟨before, limits', sameBytes, sameSize⟩ := withinLimits_after within limits fun other member =>
    smallBefore other (List.mem_append_left _ member)
  have afterwards := (withinLimits_after within limits smallBefore).1
  have smallHere : (c.m.value.length : Int) <
    ((openStore maxBatchSize maxBatchBytes db).after earlier).maxBatchBytes := by
    rw [sameBytes]
    exact smallBefore c (by simp)
  rw [and_iff_left afterwards, before.writes_iff limits' smallHere, sameSize]
  rfl

theorem defers_short :
    Defers (openStore 3 100 ∅) [⟨.put (ascii "a") (ascii "x"), true, true⟩, ⟨.del (ascii "b"), true, true⟩,
      ⟨.put (ascii "c") (ascii "yz"), true, true⟩] :=
  (defers_iff (by decide) (by decide) (by decide) (by decide) ∅ _ (by decide +kernel)).mpr (by
    intro earlier c later whole
    have short : ∀ other ∈ [⟨.put (ascii "a") (ascii "x"), true, true⟩, ⟨.del (ascii "b"), true, true⟩,
        (⟨.put (ascii "c") (ascii "yz"), true, true⟩ : DeferredCall)], (other.m.value.length : Int) < 3 := by
      decide +kernel
    exact .inl (short c (by rw [whole]; simp)))

/-- A value of four bytes is written at once where four mutations and a hundred bytes are allowed. -/
theorem not_defers : ¬ ∀ (maxBatchSize maxBatchBytes : Int), 0 < maxBatchSize → maxBatchSize < 2 ^ 31 →
    0 < maxBatchBytes →
    maxBatchBytes < 2 ^ 31 → ∀ (db : Db) (calls : List DeferredCall),
      (∀ c ∈ calls, (c.m.value.length : Int) < maxBatchBytes) →
        Defers (openStore maxBatchSize maxBatchBytes db) calls := by
  intro always
  have deferred := (always 4 100 (by decide) (by decide) (by decide) (by decide) ∅
    [⟨.put (ascii "k") (ascii "1234"), true, true⟩] (by decide +kernel) [] _ [] rfl).1
  revert deferred
  decide +kernel

end StoreLDB

end LSMIO
