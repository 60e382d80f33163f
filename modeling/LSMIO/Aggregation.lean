import LSMIO.Library.CommSplit
import LSMIO.Manager

namespace LSMIO

inductive MPIAggType
  | shared
  | entire
  | entireSerial
  | split
  deriving DecidableEq

def AGGREGATION_DIR_INFIX : Bytes := ascii "agg"

/-- What the ranks of a job construct their managers from. A manager without a communicator is a job
of one rank. `host` names the ranks that `MPI_COMM_TYPE_SHARED` puts together. -/
structure Job where
  worldSize : Nat
  host : Nat → Nat
  mpiAggType : MPIAggType
  disableAggDirStructure : Bool
  dbName : Bytes
  dbDir : Bytes

/-- `/=` of paths, for a right side that is relative. -/
def pathAppend (path part : Bytes) : Bytes :=
  if path = [] ∨ path.getLast? = some 47 then path ++ part else path ++ ascii "/" ++ part

namespace Job

variable (j : Job)

def isShared : Bool := decide (1 < j.worldSize)

def isSharedSplit : Bool := j.isShared && (j.mpiAggType == .shared || j.mpiAggType == .split)

/-- The color of a rank in the split that makes `_aggComm`, which is else the whole communicator. -/
def color (worldRank : Nat) : Nat := match j.mpiAggType with
  | .shared => j.host worldRank
  | .split => worldRank / 2
  | .entire | .entireSerial => 0

/-- Its key in that split, or its rank in the whole communicator. -/
def key (worldRank : Nat) : Nat := match j.mpiAggType with
  | .shared => AGGREGATION_RANK
  | .split | .entire | .entireSerial => worldRank

/-- What `_init` makes of the manager of a rank. -/
def manager (worldRank : Nat) : LSMIOManager :=
  if j.isShared then
    ⟨true, CommSplit.rank j.color j.key j.worldSize worldRank, CommSplit.groupSize j.color j.worldSize worldRank⟩
  else ⟨false, 0, 1⟩

/-- `_dbDir` after `_init`. -/
def rankDbDir (worldRank : Nat) : Bytes :=
  if j.isSharedSplit && !j.disableAggDirStructure then
    pathAppend (pathAppend j.dbDir AGGREGATION_DIR_INFIX) (Decimal.digits worldRank)
  else j.dbDir

def dbPath (worldRank : Nat) : Bytes :=
  if j.rankDbDir worldRank = [] then j.dbName else j.rankDbDir worldRank ++ ascii "/" ++ j.dbName

/-- The world rank of `AGGREGATION_RANK` in the communicator of a rank. -/
def server (worldRank : Nat) : Nat := CommSplit.root j.color j.key j.worldSize worldRank

/-- The place of a key of a rank at the rank that serves it: the database, and the key there. -/
def place (worldRank : Nat) (key : Key) : Bytes × Key :=
  (j.dbPath (j.server worldRank), (j.manager (j.server worldRank)).rankedKey (j.manager worldRank).aggRank key)

/-- Where a rank's value for a key ends up. Another rank than the server has only the key as it is read from its
message. -/
def location (worldRank : Nat) (key : Key) : Option (Bytes × Key) :=
  if (j.manager worldRank).isOpenLocal then some (j.place worldRank key)
  else (received (Command.put key []).message.serialize).map fun msg => j.place worldRank msg.key

/-- All ranks are in one communicator. -/
def OneGroup : Prop := ∀ r < j.worldSize, ∀ r' < j.worldSize, j.color r = j.color r'

variable {j} {r r' : Nat}

theorem key_ordered (j : Job) : Monotone j.key := by
  intro r r' less
  unfold key
  split
  · exact le_rfl
  all_goals exact less

theorem manager_of_shared (shared : j.isShared = true) (r : Nat) : j.manager r =
    ⟨true, CommSplit.rank j.color j.key j.worldSize r, CommSplit.groupSize j.color j.worldSize r⟩ := if_pos shared

theorem manager_of_single (single : j.isShared = false) (r : Nat) : j.manager r = ⟨false, 0, 1⟩ := by
  rw [manager, if_neg (by simp [single])]

theorem worldSize_le_one (single : j.isShared = false) : j.worldSize ≤ 1 := by
  simpa [isShared] using single

theorem isOpenLocal_iff (shared : j.isShared = true) (r : Nat) :
    (j.manager r).isOpenLocal = true ↔ CommSplit.rank j.color j.key j.worldSize r = 0 := by
  simp [manager_of_shared shared, LSMIOManager.isOpenLocal, AGGREGATION_RANK]

theorem isServeLocal_iff (shared : j.isShared = true) (member : r < j.worldSize) :
    (j.manager (j.server r)).isServeLocal = true ↔ ∃ q < j.worldSize, j.color q = j.color r ∧ q ≠ j.server r := by
  obtain ⟨inside, same, first, -⟩ := CommSplit.root_spec j.color j.key_ordered member
  have members := CommSplit.one_lt_groupSize_iff j.color inside
  rw [same] at members
  simp [manager_of_shared shared, LSMIOManager.isServeLocal, AGGREGATION_RANK, server, first, members]

theorem server_congr (member : r < j.worldSize) (member' : r' < j.worldSize) (group : j.color r = j.color r') :
    j.server r = j.server r' := CommSplit.root_congr j.key_ordered member member' group

theorem server_mem (member : r < j.worldSize) : j.server r < j.worldSize ∧ j.color (j.server r) = j.color r :=
  have root := CommSplit.root_spec j.color j.key_ordered member
  ⟨root.1, root.2.1⟩

/-- Each rank is served by one rank of its group, the lowest, and by no other: that rank opens its
database, and if there are others in the group it serves them; none of them opens any. The groups that
`Split` makes have at most two ranks. -/
theorem one_opener (member : r < j.worldSize) :
    j.server r < j.worldSize ∧ j.color (j.server r) = j.color r ∧ (j.manager (j.server r)).isOpenLocal = true ∧
      ∀ q < j.worldSize, j.color q = j.color r → j.server q = j.server r ∧ j.server r ≤ q ∧
        (j.mpiAggType = .split → q ≤ j.server r + 1) ∧ (q ≠ j.server r → (j.manager q).isOpenLocal = false ∧
          (j.manager q).isOpenRemote = true ∧ (j.manager (j.server r)).isServeLocal = true) := by
  obtain ⟨inside, same, first, least⟩ := CommSplit.root_spec j.color j.key_ordered member
  have pairs : ∀ q, j.color q = j.color r → j.mpiAggType = .split → q ≤ j.server r + 1 := by
    intro q group split
    have halves : q / 2 = j.server r / 2 := by simpa [color, split, server] using group.trans same.symm
    omega
  cases shared : j.isShared with
  | false =>
    have few := worldSize_le_one shared
    refine ⟨inside, same, by rw [manager_of_single shared]; rfl, fun q other group =>
      ⟨server_congr other member group, least q group, pairs q group, fun different => ?_⟩⟩
    have here : j.server r < j.worldSize := inside
    omega
  | true =>
    refine ⟨inside, same, (isOpenLocal_iff shared _).mpr first, fun q other group =>
      ⟨server_congr other member group, least q group, pairs q group, fun different => ?_⟩⟩
    · have behind : CommSplit.rank j.color j.key j.worldSize q ≠ 0 := by
        intro zero
        have own := (CommSplit.root_eq_iff j.color j.key_ordered other).mpr zero
        exact different (own.symm.trans (server_congr other member group))
      refine ⟨?_, ?_, (isServeLocal_iff shared member).mpr ⟨q, other, group, different⟩⟩
      · rw [← Bool.not_eq_true, isOpenLocal_iff shared]
        exact behind
      · simp [manager_of_shared shared, LSMIOManager.isOpenRemote, AGGREGATION_RANK, behind]

/-- Two hosts with two ranks each: the second rank of a host leaves its database to the first. -/
theorem one_opener_hosts : (Job.manager ⟨4, fun r => r % 2, .shared, false, [97], []⟩ 3).isOpenRemote = true ∧
    (Job.manager ⟨4, fun r => r % 2, .shared, false, [97], []⟩ 1).isServeLocal = true :=
  have group := (one_opener (j := ⟨4, fun r => r % 2, .shared, false, [97], []⟩) (r := 3) (by decide)).2.2.2 3
    (by decide) rfl
  (group.2.2.2 (by decide)).2

theorem pathAppend_ne_nil {path part : Bytes} (nonempty : part ≠ []) : pathAppend path part ≠ [] := by
  unfold pathAppend
  split <;> simp [nonempty]

theorem pathAppend_injective (path : Bytes) : Function.Injective (pathAppend path) := by
  intro part part' same
  unfold pathAppend at same
  split at same
  · exact List.append_cancel_left same
  · exact List.append_cancel_left same

/-- With a directory for each rank that opens one, the databases of two ranks are never one. -/
theorem dbPath_injective (split : j.isSharedSplit = true) (enabled : j.disableAggDirStructure = false) :
    Function.Injective j.dbPath := by
  intro r r' same
  have own : ∀ q, j.dbPath q = pathAppend (pathAppend j.dbDir AGGREGATION_DIR_INFIX) (Decimal.digits q) ++
    ascii "/" ++ j.dbName := by
    intro q
    have dir : j.rankDbDir q = pathAppend (pathAppend j.dbDir AGGREGATION_DIR_INFIX) (Decimal.digits q) := by
      simp [rankDbDir, split, enabled]
    rw [dbPath, dir, if_neg (pathAppend_ne_nil (Decimal.digits_ne_nil q))]
  rw [own, own] at same
  exact Decimal.digits_injective (pathAppend_injective _ (List.append_cancel_right (List.append_cancel_right same)))

/-- Without those directories all databases are one. -/
theorem dbPath_const (flat : j.disableAggDirStructure = true ∨ j.isSharedSplit = false) (r r' : Nat) :
    j.dbPath r = j.dbPath r' := by
  have dir : ∀ q, j.rankDbDir q = j.dbDir := by
    intro q
    rcases flat with disabled | whole
    · simp [rankDbDir, disabled]
    · simp [rankDbDir, whole]
  rw [dbPath, dbPath, dir, dir]

theorem rankedKey_of_serves {m : LSMIOManager} (serves : m.isServeLocal = true) (rank : Nat) (key : Key) :
    m.rankedKey rank key = Decimal.digits rank ++ 58 :: 58 :: key := by
  have colons : ascii "::" = [58, 58] := by decide
  simp only [LSMIOManager.rankedKey, serves, if_true, colons, List.append_assoc, List.cons_append, List.nil_append]

theorem rankedKey_of_not_serves {m : LSMIOManager} (alone : m.isServeLocal = false) (rank : Nat) (key : Key) :
    m.rankedKey rank key = key := by
  simp only [LSMIOManager.rankedKey, alone, Bool.false_eq_true, if_false]

/-- Behind one server two ranks have no key of the database in common. -/
theorem rankedKey_inj (member : r < j.worldSize) (member' : r' < j.worldSize) (group : j.color r = j.color r')
    {key key' : Key} (same : (j.manager (j.server r)).rankedKey (j.manager r).aggRank key =
      (j.manager (j.server r')).rankedKey (j.manager r').aggRank key') : r = r' ∧ key = key' := by
  rw [← server_congr member member' group] at same
  cases serves : (j.manager (j.server r)).isServeLocal with
  | true =>
    have shared : j.isShared = true := by
      by_contra single
      rw [manager_of_single (by simpa using single)] at serves
      cases serves
    rw [rankedKey_of_serves serves, rankedKey_of_serves serves, manager_of_shared shared,
      manager_of_shared shared] at same
    obtain ⟨ranks, rest⟩ := Decimal.digits_append_inj (by decide) same
    exact ⟨CommSplit.rank_injective j.key_ordered member member' group ranks, (List.cons.inj rest).2⟩
  | false =>
    rw [rankedKey_of_not_serves serves, rankedKey_of_not_serves serves] at same
    refine ⟨?_, same⟩
    cases shared : j.isShared with
    | false =>
      have few := worldSize_le_one shared
      omega
    | true =>
      -- a rank that serves nobody is alone in its group
      have alone : ∀ q < j.worldSize, j.color q = j.color r → q = j.server r := by
        intro q other same
        by_contra different
        have serving := (isServeLocal_iff shared member).mpr ⟨q, other, same, different⟩
        rw [serves] at serving
        cases serving
      exact (alone r member rfl).trans (alone r' member' group.symm).symm

/-- A rank that opens a database has rank 0 in its group, also when it is alone. -/
theorem aggRank_server (member : r < j.worldSize) : (j.manager (j.server r)).aggRank = 0 := by
  cases shared : j.isShared with
  | false => rw [manager_of_single shared]
  | true =>
    rw [manager_of_shared shared]
    exact (CommSplit.root_spec j.color j.key_ordered member).2.2.1

/-- A key without a separator and a NUL gets to the server as it is. -/
theorem location_of_plain {key : Key} (plain : Plain key) (r : Nat) : j.location r key = some (j.place r key) := by
  have sent : Plain (Command.put key []).message.key := plain
  rw [location, Message.received_serialize (Command.plain_message_command _) sent]
  split <;> rfl

/-- Every server has a key that it keeps under one name, whether it puts its rank in front or not. -/
theorem exists_place (member : r < j.worldSize) :
    ∃ key, Plain key ∧ j.place (j.server r) key = (j.dbPath (j.server r), Decimal.digits 0 ++ [58, 58]) := by
  obtain ⟨inside, same⟩ := server_mem member
  have own : j.server (j.server r) = j.server r := server_congr inside member same
  cases serves : (j.manager (j.server r)).isServeLocal with
  | true =>
    refine ⟨[], by decide, ?_⟩
    rw [place, own, rankedKey_of_serves serves, aggRank_server member]
  | false =>
    refine ⟨Decimal.digits 0 ++ [58, 58], by decide +kernel, ?_⟩
    rw [place, own, rankedKey_of_not_serves serves]

/-- No two ranks of the job, and no two keys of one rank, share a place, exactly if each group has a directory of
its own or there is only one group. Only those keys count that the server reads from a message as they are. -/
theorem location_injective_iff (j : Job) :
    (∀ r < j.worldSize, ∀ r' < j.worldSize, ∀ key key', Plain key → Plain key' →
      j.location r key = j.location r' key' → r = r' ∧ key = key') ↔
      j.disableAggDirStructure = false ∨ j.OneGroup := by
  constructor
  · intro injective
    by_contra both
    obtain ⟨disabled, groups⟩ := not_or.mp both
    simp only [OneGroup, not_forall] at groups
    obtain ⟨r, member, r', member', different⟩ := groups
    obtain ⟨inside, same⟩ := server_mem member
    obtain ⟨inside', same'⟩ := server_mem member'
    obtain ⟨key, plain, stored⟩ := exists_place member
    obtain ⟨key', plain', stored'⟩ := exists_place member'
    have one := dbPath_const (.inl (by simpa using disabled)) (j.server r) (j.server r')
    obtain ⟨servers, -⟩ := injective _ inside _ inside' key key' plain plain' (by
      rw [location_of_plain plain, location_of_plain plain', stored, stored', one])
    exact different (same.symm.trans ((congrArg j.color servers).trans same'))
  · intro apart r member r' member' key key' plain plain' places
    rw [location_of_plain plain, location_of_plain plain', Option.some.injEq] at places
    obtain ⟨paths, names⟩ := Prod.ext_iff.mp places
    refine rankedKey_inj member member' ?_ names
    rcases apart with enabled | groups
    · cases split : j.isSharedSplit with
      | true =>
        have servers := dbPath_injective split enabled paths
        have groups := congrArg j.color servers
        rwa [(server_mem member).2, (server_mem member').2] at groups
      | false =>
        cases shared : j.isShared with
        | false =>
          have few := worldSize_le_one shared
          have here : r = r' := by omega
          rw [here]
        | true =>
          have whole : ∀ q, j.color q = 0 := by
            intro q
            cases kind : j.mpiAggType <;> simp [isSharedSplit, shared, kind, color] at split ⊢
          rw [whole, whole]
    · exact groups r member r' member'

end Job

end LSMIO
