import LSMIO.RemoteRead

namespace LSMIO.LSMIOManager

section Writes

variable {σ : Type*} (store : LSMIOStore σ) (alwaysFlush : Bool)

/-- A write sent by a client rank, with the store once the aggregator has
handled it. There is no result where the message cannot be read. -/
def sendWrite (m : LSMIOManager) (s : σ) (request : Command) : Option (Bool × σ) :=
  (received request.message.serialize).map fun msg =>
    (true, (m.aggregator.handleCommand store alwaysFlush s m.aggRank msg).1)

def put (m : LSMIOManager) (s : σ) (key : Key) (value : Value) (flush : Bool) : Option (Bool × σ) :=
  if m.isOpenLocal then some (store.put s (m.rankedKey m.aggRank key) value flush)
  else m.sendWrite store alwaysFlush s (.put key value)

def del (m : LSMIOManager) (s : σ) (key : Key) (flush : Bool) : Option (Bool × σ) :=
  if m.isOpenLocal then some (store.del s (m.rankedKey m.aggRank key) flush)
  else m.sendWrite store alwaysFlush s (.del key)

def metaPut (m : LSMIOManager) (s : σ) (key : Key) (value : Value) (flush : Bool) : Option (Bool × σ) :=
  if m.isOpenLocal then some (store.metaPut s (m.rankedKey m.aggRank key) value flush)
  else m.sendWrite store alwaysFlush s (.metaPut key value)

end Writes

/-- A rank is in the communicator of a shared manager. -/
def Joined (m : LSMIOManager) : Prop := m.isShared = true → m.aggRank < m.aggSize

instance : DecidablePred Joined := fun _ => inferInstanceAs (Decidable (_ → _))

variable {m : LSMIOManager}

/-- The aggregator names keys after their ranks exactly when it serves other ranks. -/
theorem isServeLocal_aggregator (m : LSMIOManager) :
    m.aggregator.isServeLocal = (m.isShared && decide (1 < m.aggSize)) := by
  cases shared : m.isShared <;> simp [isServeLocal, aggregator, shared]

theorem rankedKey_of_local (opened : m.isOpenLocal = true) (rank : Nat) (key : Key) :
    m.rankedKey rank key = m.aggregator.rankedKey rank key := by
  have same : m.isServeLocal = m.aggregator.isServeLocal := by
    rw [isServeLocal_aggregator, isServeLocal]
    cases shared : m.isShared with
    | false => rfl
    | true =>
      have first : m.aggRank = AGGREGATION_RANK := by simpa [isOpenLocal, shared] using opened
      simp [first]
  rw [rankedKey, rankedKey, same]

/-- A rank other than the aggregator's has an aggregator that serves it. -/
theorem serves_of_remote (joined : m.Joined) (remote : m.isOpenLocal = false) : m.aggregator.isServeLocal = true := by
  simp only [isOpenLocal, Bool.or_eq_false_iff, Bool.not_eq_false', beq_eq_false_iff_ne] at remote
  have inside := joined remote.1
  have other : m.aggRank ≠ 0 := remote.2
  rw [isServeLocal_aggregator, remote.1, Bool.true_and, decide_eq_true_eq]
  omega

end LSMIO.LSMIOManager
