import LSMIO.Deferring

namespace LSMIO

open LSMIOStore (StoreMap metaPrefix)

/-- A call of `metaPut` by a rank. -/
structure MetaPut where
  rank : Nat
  key : Key
  value : Value
  flush : Bool
  deriving DecidableEq

/-- The manager of a rank of a shared communicator. -/
def LSMIOManager.ofRank (size rank : Nat) : LSMIOManager := ⟨true, rank, size⟩

/-- The bytes that end a field of a message, a key of a serialized list, and a pair of it. -/
def delimiters : List UInt8 := [COL_SEPARATOR, 124, 10]

namespace MetaPut

/-- The name under which the aggregator's store has the metadata. -/
def name (size : Nat) (put : MetaPut) : Key :=
  metaPrefix ++ (LSMIOManager.ofRank size put.rank).aggregator.rankedKey put.rank put.key

def Clean (put : MetaPut) : Prop := ∀ b ∈ delimiters, b ∉ put.key ∧ b ∉ put.value

instance : DecidablePred Clean := fun _ => inferInstanceAs (Decidable (∀ _ ∈ _, _))

end MetaPut

/-- The last value that the rank has put under the key. -/
def lastOwn (rank : Nat) (puts : List MetaPut) (key : Key) : Option Value :=
  lastValue ((puts.filter (·.rank = rank)).map fun put => (put.key, put.value)) key

/-- One pair for each key the rank has put whose name starts with `inFix`, with the last value. -/
def ListsOwn (size rank : Nat) (puts : List MetaPut) (inFix : Bytes) (pairs : List (Key × Value)) : Prop :=
  pairs.Nodup ∧ ∀ entry, entry ∈ pairs ↔ ∃ key, inFix <+: key ∧
    entry.1 = metaPrefix ++ (LSMIOManager.ofRank size rank).aggregator.rankedKey rank key ∧
    lastOwn rank puts key = some entry.2

section History

variable {σ : Type*} (store : LSMIOStore σ) (size : Nat) (alwaysFlush : Bool) (first : σ) (puts : List MetaPut)

/-- The aggregator's store after a history of `metaPut` calls, when every message of it can be read. -/
def metaHistory : Option σ :=
  puts.foldlM (fun s put =>
    ((LSMIOManager.ofRank size put.rank).metaPut store alwaysFlush s put.key put.value put.flush).map Prod.snd)
    first

/-- After the history the rank calls `metaGetAll`, and what is appended lists its own metadata. -/
def MetaGetAllLists (rank : Nat) (before : List (Key × Value)) (inFix : Bytes) : Prop :=
  ∃ s retValue pairs, metaHistory store size alwaysFlush first puts = some s ∧
    (LSMIOManager.ofRank size rank).metaGetAll store alwaysFlush s before inFix = some (retValue, before ++ pairs) ∧
    ListsOwn size rank puts inFix pairs

end History

variable {size rank : Nat} {alwaysFlush : Bool} {puts front : List MetaPut}

/-- Whatever rank calls, the keys of two ranks or two names are kept apart. -/
theorem rankedKey_inj {q r : Nat} {key other : Key} (insideQ : q < size) (insideR : r < size) :
    (LSMIOManager.ofRank size q).aggregator.rankedKey q key =
      (LSMIOManager.ofRank size r).aggregator.rankedKey r other ↔ q = r ∧ key = other := by
  have colons : ascii "::" = [58, 58] := by decide
  simp only [LSMIOManager.rankedKey, LSMIOManager.isServeLocal_aggregator, LSMIOManager.ofRank, Bool.true_and,
    decide_eq_true_eq, colons]
  by_cases served : 1 < size
  · rw [if_pos served, if_pos served]
    refine ⟨fun same => ?_, fun same => by rw [same.1, same.2]⟩
    simp only [List.append_assoc, List.cons_append, List.nil_append] at same
    obtain ⟨ranks, rest⟩ := Decimal.digits_append_inj (by decide) same
    exact ⟨ranks, by simpa using rest⟩
  · rw [if_neg served, if_neg served]
    have alone : q = r := by omega
    simp [alone]

theorem ofRank_isOpenLocal : (LSMIOManager.ofRank size rank).isOpenLocal = decide (rank = 0) := rfl

/-- A `metaPut` is lost only with a key of a client rank that hides its own end. -/
theorem metaPut_eq {σ : Type*} {store : LSMIOStore σ} {put : MetaPut} (clean : put.Clean) (s : σ) :
    ((LSMIOManager.ofRank size put.rank).metaPut store alwaysFlush s put.key put.value put.flush).map Prod.snd =
      if put.rank ≠ 0 ∧ 0 ∈ put.key then none
      else some (store.batchMutation s .put (put.name size) put.value
        (if put.rank = 0 then put.flush else alwaysFlush)).2 := by
  rw [LSMIOManager.metaPut, ofRank_isOpenLocal]
  by_cases first : put.rank = 0
  · have opened : (LSMIOManager.ofRank size put.rank).isOpenLocal = true := by simp [ofRank_isOpenLocal, first]
    rw [LSMIOManager.rankedKey_of_local opened]
    simp only [first, decide_true, if_true, ne_eq, not_true_eq_false, false_and, if_false, MetaPut.name]
    rfl
  · simp only [first, decide_false, Bool.false_eq_true, if_false, ne_eq, not_false_eq_true, true_and]
    have separator := (clean COL_SEPARATOR (by decide)).1
    rw [LSMIOManager.sendWrite]
    by_cases hidden : 0 ∈ put.key
    · have whole : put.key.takeWhile (· ≠ COL_SEPARATOR) = put.key :=
        List.takeWhile_eq_self_iff.mpr (StringStream.decide_ne_of_fresh separator)
      have unread := isSome_deSerializeCmd (Command.metaPut put.key put.value).plain_message_command put.key put.value
      rw [Framed, whole] at unread
      have none : received (Command.metaPut put.key put.value).message.serialize = none :=
        Option.not_isSome_iff_eq_none.mp fun some => unread.mp some hidden
      rw [none, if_pos hidden]
      rfl
    · have plain : Plain (Command.metaPut put.key put.value).message.key := ⟨separator, hidden⟩
      rw [Message.received_serialize (Command.plain_message_command _) plain, if_neg hidden]
      rfl

/-- The store in which each name holds the last value put under it. -/
def namedStore (size : Nat) (puts : List MetaPut) : StoreMap :=
  puts.foldl (fun s put => s.insert (put.name size) put.value) ∅

theorem namedStore_concat (size : Nat) (puts : List MetaPut) (put : MetaPut) :
    namedStore size (puts ++ [put]) = (namedStore size puts).insert (put.name size) put.value := by
  rw [namedStore, List.foldl_append]
  rfl

/-- A history is lost with one of its puts. Otherwise its writes settle as the history says, and a front part of it
is shown. -/
theorem metaHistory_cases {σ : Type*} {store : LSMIOStore σ} {shown settled : σ → StoreMap}
    (deferring : store.Deferring shown settled) {first : σ} (fresh : shown first = ∅ ∧ settled first = ∅)
    (size : Nat) (alwaysFlush : Bool) (clean : ∀ put ∈ puts, put.Clean) :
    ((∃ put ∈ puts, put.rank ≠ 0 ∧ 0 ∈ put.key) ∧ metaHistory store size alwaysFlush first puts = none) ∨
      (∀ put ∈ puts, put.rank ≠ 0 → 0 ∉ put.key) ∧ ∃ s front, metaHistory store size alwaysFlush first puts = some s ∧
        settled s = namedStore size puts ∧ front <+: puts ∧ shown s = namedStore size front := by
  unfold metaHistory
  induction puts using List.reverseRecOn with
  | nil => exact .inr ⟨by simp, first, [], rfl, fresh.2, List.prefix_refl _, fresh.1⟩
  | append_singleton puts put ih =>
    rw [List.foldlM_append]
    rcases ih fun other member => clean other (List.mem_append_left _ member) with
      ⟨⟨other, member, lost⟩, none⟩ | ⟨readable, s, front, before, settles, isFront, shows⟩
    · exact .inl ⟨⟨other, List.mem_append_left _ member, lost⟩, by rw [none]; rfl⟩
    rw [before, Option.bind_eq_bind, Option.bind_some, List.foldlM_cons, metaPut_eq (clean put (by simp))]
    by_cases lost : put.rank ≠ 0 ∧ 0 ∈ put.key
    · exact .inl ⟨⟨put, by simp, lost⟩, by rw [if_pos lost]; rfl⟩
    · rw [if_neg lost, Option.bind_eq_bind, Option.bind_some]
      generalize (if put.rank = 0 then put.flush else alwaysFlush) = flush
      have settles' : settled (store.batchMutation s .put (put.name size) put.value flush).2 =
          namedStore size (puts ++ [put]) := by
        rw [deferring.mutated, settles, namedStore_concat]
        rfl
      refine .inr ⟨?_, (store.batchMutation s .put (put.name size) put.value flush).2, ?_⟩
      · intro other member
        rcases List.mem_append.mp member with old | new
        · exact readable other old
        · rw [List.mem_singleton.mp new]
          exact fun client hidden => lost ⟨client, hidden⟩
      rcases deferring.moved s .put (put.name size) put.value flush with same | drained | drained
      · exact ⟨front, rfl, settles', isFront.trans (List.prefix_append _ _), same.trans shows⟩
      · exact ⟨puts, rfl, settles', List.prefix_append _ _, drained.trans settles⟩
      · exact ⟨_, rfl, settles', List.prefix_refl _, drained.trans settles'⟩

theorem getElem?_namedStore (key : Key) :
    (namedStore size puts)[key]? = lastValue (puts.map fun put => (put.name size, put.value)) key := by
  unfold namedStore
  induction puts using List.reverseRecOn with
  | nil => simp
  | append_singleton puts put ih =>
    rw [List.foldl_append, List.map_append, List.map_singleton, lastValue_concat, ← ih, List.foldl_cons, List.foldl_nil,
      OrderedMap.getElem?_insert]
    by_cases here : put.name size = key
    · rw [if_pos here, if_pos here.symm]
    · rw [if_neg here, if_neg (Ne.symm here)]

/-- The last value under a rank's name is that of the rank's own last put. -/
theorem lastValue_name (inside : rank < size) (ranks : ∀ put ∈ puts, put.rank < size) (key : Key) :
    lastValue (puts.map fun put => (put.name size, put.value))
        (metaPrefix ++ (LSMIOManager.ofRank size rank).aggregator.rankedKey rank key) = lastOwn rank puts key := by
  refine lastValue_renamed fun put member => ?_
  rw [MetaPut.name, List.append_cancel_left_eq, rankedKey_inj (ranks put member) inside]

theorem mem_of_lastOwn {key : Key} {value : Value} (last : lastOwn rank puts key = some value) :
    ∃ put ∈ puts, put.rank = rank ∧ put.key = key := by
  obtain ⟨put, inOwn, named⟩ := List.mem_map.mp (mem_of_lastValue last)
  obtain ⟨member, mine⟩ := List.mem_filter.mp inOwn
  exact ⟨put, member, of_decide_eq_true mine, congrArg Prod.fst named⟩

theorem exists_lastOwn {put : MetaPut} (member : put ∈ puts) : ∃ value, lastOwn put.rank puts put.key = some value := by
  have own : put ∈ puts.filter (·.rank = put.rank) := List.mem_filter.mpr ⟨member, by simp⟩
  exact Option.ne_none_iff_exists'.mp
    (lastValue_ne_none (List.mem_map_of_mem (f := fun put : MetaPut => (put.key, put.value)) own))

/-- A scan lists a rank's last put of a key when its prefix starts the key's name. -/
theorem mem_scan_iff (inside : rank < size) (ranks : ∀ put ∈ puts, put.rank < size) (infixOfScan : Bytes) (key : Key)
    (value : Value) :
    (metaPrefix ++ (LSMIOManager.ofRank size rank).aggregator.rankedKey rank key, value) ∈
        (LSMIOStore.ofMap.metaGetAll (namedStore size puts) infixOfScan).2 ↔
      lastOwn rank puts key = some value ∧
        infixOfScan <+: (LSMIOManager.ofRank size rank).aggregator.rankedKey rank key := by
  rw [← lastValue_name inside ranks, ← getElem?_namedStore, ← Std.ExtTreeMap.mem_toList_iff_getElem?_eq_some]
  simp [LSMIOStore.metaGetAll, LSMIOStore.ofMap, List.prefix_append_right_inj]

/-- What a scan lists has been put. -/
theorem exists_put_of_mem_scan {infixOfScan : Bytes} {entry : Key × Value}
    (listed : entry ∈ (LSMIOStore.ofMap.metaGetAll (namedStore size puts) infixOfScan).2) :
    ∃ put ∈ puts, (put.name size, put.value) = entry := by
  have inStore : entry ∈ (namedStore size puts).toList := List.mem_of_mem_filter listed
  rw [Std.ExtTreeMap.mem_toList_iff_getElem?_eq_some, getElem?_namedStore] at inStore
  exact List.mem_map.mp (mem_of_lastValue inStore)

/-- A scan of a part of what was put lists a rank's own metadata exactly when its prefix picks out the names of these
keys among all in the part, and the part has the last value of each of them. -/
theorem listsOwn_scan_iff (inside : rank < size) (ranks : ∀ put ∈ puts, put.rank < size)
    (within : ∀ put ∈ front, put ∈ puts) (inFix infixOfScan : Bytes) :
    ListsOwn size rank puts inFix (LSMIOStore.ofMap.metaGetAll (namedStore size front) infixOfScan).2 ↔
      (∀ put ∈ front, infixOfScan <+: (LSMIOManager.ofRank size put.rank).aggregator.rankedKey put.rank put.key ↔
        put.rank = rank ∧ inFix <+: put.key) ∧
      ∀ key, inFix <+: key → lastOwn rank front key = lastOwn rank puts key := by
  have frontRanks : ∀ put ∈ front, put.rank < size := fun put member => ranks put (within put member)
  have listed := fun {q : Nat} (insideQ : q < size) => mem_scan_iff insideQ frontRanks infixOfScan
  have distinct : (LSMIOStore.ofMap.metaGetAll (namedStore size front) infixOfScan).2.Nodup :=
    OrderedMap.nodup_of_ascending (Std.ExtTreeMap.ordered_keys_toList.filter _)
  simp only [ListsOwn, distinct, true_and]
  constructor
  · intro own
    have picks : ∀ put ∈ front,
        infixOfScan <+: (LSMIOManager.ofRank size put.rank).aggregator.rankedKey put.rank put.key ↔
          put.rank = rank ∧ inFix <+: put.key := by
      intro put member
      constructor
      · intro picked
        obtain ⟨value, last⟩ := exists_lastOwn member
        obtain ⟨key, starts, same, -⟩ := (own _).mp ((listed (frontRanks put member) put.key value).mpr ⟨last, picked⟩)
        obtain ⟨mine, rfl⟩ := (rankedKey_inj (frontRanks put member) inside).mp (List.append_cancel_left same)
        exact ⟨mine, starts⟩
      · rintro ⟨rfl, starts⟩
        obtain ⟨value, last⟩ := exists_lastOwn (within put member)
        exact ((listed inside put.key value).mp ((own (_, value)).mpr ⟨put.key, starts, rfl, last⟩)).2
    refine ⟨picks, fun key starts => Option.ext fun value => ?_⟩
    constructor
    · intro last
      obtain ⟨put, member, rfl, rfl⟩ := mem_of_lastOwn last
      obtain ⟨key, -, same, last⟩ :=
        (own (_, value)).mp ((listed inside put.key value).mpr ⟨last, (picks put member).mpr ⟨rfl, starts⟩⟩)
      obtain ⟨-, rfl⟩ := (rankedKey_inj inside inside).mp (List.append_cancel_left same)
      exact last
    · intro last
      exact ((listed inside key value).mp ((own (_, value)).mpr ⟨key, starts, rfl, last⟩)).1
  · rintro ⟨picks, seen⟩ ⟨name, value⟩
    constructor
    · intro entry
      obtain ⟨put, member, same⟩ := exists_put_of_mem_scan entry
      cases same
      obtain ⟨last, picked⟩ := (listed (frontRanks put member) put.key put.value).mp entry
      obtain ⟨rfl, starts⟩ := (picks put member).mp picked
      exact ⟨put.key, starts, rfl, (seen put.key starts).symm.trans last⟩
    · rintro ⟨key, starts, rfl, last⟩
      have last' : lastOwn rank front key = some value := (seen key starts).trans last
      obtain ⟨put, member, rfl, rfl⟩ := mem_of_lastOwn last'
      exact (listed inside put.key value).mpr ⟨last', (picks put member).mpr ⟨rfl, starts⟩⟩

/-- A byte outside the texts put around a key is in the name only if it is in the key. -/
theorem MetaPut.fresh_name {b : UInt8} (other : Decimal.isDigit b = false) (fixed : b ∉ metaPrefix ++ ascii "::")
    {put : MetaPut} (absent : b ∉ put.key) : b ∉ put.name size := by
  have noDigit : b ∉ Decimal.digits put.rank := by
    intro member
    rw [Decimal.digits_isDigit put.rank b member] at other
    cases other
  rw [List.mem_append, not_or] at fixed
  rw [MetaPut.name, LSMIOManager.rankedKey]
  split
  · simp only [List.mem_append, not_or]
    exact ⟨fixed.1, ⟨noDigit, fixed.2⟩, absent⟩
  · simp only [List.mem_append, not_or]
    exact ⟨fixed.1, absent⟩

/-- What the aggregator's store returns to a client has no delimiter that ends a part of a pair. -/
theorem undelimited_namedStore (size : Nat) (clean : ∀ put ∈ puts, put.Clean) (infixOfScan : Bytes) :
    ∀ tup ∈ (LSMIOStore.ofMap.metaGetAll (namedStore size puts) infixOfScan).2, Undelimited tup := by
  intro tup listed
  obtain ⟨put, inPuts, rfl⟩ := exists_put_of_mem_scan listed
  have bar := clean put inPuts 124 (by decide)
  have lineBreak := clean put inPuts 10 (by decide)
  exact ⟨put.fresh_name (by decide) (by decide +kernel) bar.1,
    put.fresh_name (by decide) (by decide +kernel) lineBreak.1,
    lineBreak.2⟩

/-- The scans of a store for metadata list what a history has put. -/
def LSMIOStore.Scans {σ : Type*} (store : LSMIOStore σ) (size : Nat) (s : σ) (puts : List MetaPut) : Prop :=
  ∀ infixOfScan, (store.metaGetAll s infixOfScan).2 = (LSMIOStore.ofMap.metaGetAll (namedStore size puts) infixOfScan).2

/-- What `metaGetAll` appends on a rank: a scan with the caller's `inFix` on
the aggregator, with the rank's prefix on a client. -/
theorem metaGetAll_scans {σ : Type*} {store : LSMIOStore σ} {s : σ} (rank : Nat) (alwaysFlush : Bool)
    (clean : ∀ put ∈ puts, put.Clean) (scans : store.Scans size s puts) (before : List (Key × Value)) (inFix : Bytes) :
    ∃ retValue, (LSMIOManager.ofRank size rank).metaGetAll store alwaysFlush s before inFix =
      some (retValue, before ++ (LSMIOStore.ofMap.metaGetAll (namedStore size puts)
        (if rank = 0 then inFix else Decimal.digits rank ++ ascii "::")).2) := by
  by_cases first : rank = 0
  · refine ⟨(store.metaGetAll s inFix).1, ?_⟩
    rw [LSMIOManager.metaGetAll_local (by simp [ofRank_isOpenLocal, first]), if_pos first, scans]
  · have remote : (LSMIOManager.ofRank size rank).isOpenRemote = true :=
      LSMIOManager.isOpenRemote_of_not_local (by simp [ofRank_isOpenLocal, first])
    refine ⟨true, ?_⟩
    have delivered := vectorTupleDeserialize_serialize
      (undelimited_namedStore size clean (Decimal.digits rank ++ ascii "::")) before
    rw [LSMIOManager.metaGetAll_remote remote, if_neg first, ← delivered, LSMIOManager.listedFor, scans]
    rfl

/-- A client's prefix picks out the names of its own keys. -/
theorem rankPrefix_iff (served : 1 < size) {q r : Nat} (key : Key) :
    Decimal.digits r ++ ascii "::" <+: (LSMIOManager.ofRank size q).aggregator.rankedKey q key ↔ q = r := by
  have serves : (LSMIOManager.ofRank size q).aggregator.isServeLocal = true := by
    simp [LSMIOManager.isServeLocal_aggregator, LSMIOManager.ofRank, served]
  have colons : ascii "::" = [58, 58] := by decide
  rw [LSMIOManager.rankedKey, if_pos serves, colons]
  constructor
  · rintro ⟨rest, same⟩
    simp only [List.append_assoc, List.cons_append, List.nil_append] at same
    exact (Decimal.digits_append_inj (by decide) same).1.symm
  · rintro rfl
    exact List.prefix_append _ _

/-- What `inFix` has to do with the puts for it to select a rank's own metadata: on a client it starts all keys of the
rank; on an aggregator with clients it starts a key with its rank in front exactly when the key is the aggregator's and
it starts the key. -/
def InFixSelects (size rank : Nat) (puts : List MetaPut) (inFix : Bytes) : Prop :=
  (rank ≠ 0 → ∀ put ∈ puts, put.rank = rank → inFix <+: put.key) ∧
    (rank = 0 → 1 < size → ∀ put ∈ puts, inFix <+: Decimal.digits put.rank ++ ascii "::" ++ put.key ↔
      put.rank = 0 ∧ inFix <+: put.key)

instance (size rank : Nat) (puts : List MetaPut) (inFix : Bytes) : Decidable (InFixSelects size rank puts inFix) :=
  inferInstanceAs (Decidable (_ ∧ _))

/-- A rank's scan picks out the names of its own keys with `inFix`, among all names, exactly when `inFix` selects
them. -/
theorem scan_picks_iff (inside : rank < size) (ranks : ∀ put ∈ puts, put.rank < size) (inFix : Bytes) :
    (∀ put ∈ puts, (if rank = 0 then inFix else Decimal.digits rank ++ ascii "::") <+:
        (LSMIOManager.ofRank size put.rank).aggregator.rankedKey put.rank put.key ↔
        put.rank = rank ∧ inFix <+: put.key) ↔
      InFixSelects size rank puts inFix := by
  unfold InFixSelects
  by_cases first : rank = 0
  · subst first
    simp only [if_true, ne_eq, not_true_eq_false, false_implies, true_and, forall_const]
    by_cases served : 1 < size
    · simp only [served, forall_const]
      refine forall₂_congr fun put _ => ?_
      have serves : (LSMIOManager.ofRank size put.rank).aggregator.isServeLocal = true := by
        simp [LSMIOManager.isServeLocal_aggregator, LSMIOManager.ofRank, served]
      rw [LSMIOManager.rankedKey, if_pos serves]
    · simp only [served, false_implies, iff_true]
      intro put member
      have alone : put.rank = 0 := by
        have bound := ranks put member
        omega
      have silent : (LSMIOManager.ofRank size put.rank).aggregator.isServeLocal = false := by
        simp [LSMIOManager.isServeLocal_aggregator, LSMIOManager.ofRank, served]
      rw [LSMIOManager.rankedKey, silent, if_neg Bool.false_ne_true, alone]
      simp
  · have served : 1 < size := by omega
    simp only [first, if_false, ne_eq, not_false_eq_true, forall_const, false_implies, and_true, rankPrefix_iff served]
    exact forall₂_congr fun put _ => by tauto

/-- Over any store whose scans list a part of the history, `metaGetAll` lists a rank's own metadata exactly when `inFix`
selects it in this part, and the part has the last values. -/
theorem metaGetAll_lists_of_scans {σ : Type*} {store : LSMIOStore σ} {first s : σ} (inside : rank < size)
    (ranks : ∀ put ∈ puts, put.rank < size) (clean : ∀ put ∈ puts, put.Clean)
    (stored : metaHistory store size alwaysFlush first puts = some s) (within : ∀ put ∈ front, put ∈ puts)
    (scans : store.Scans size s front) (before : List (Key × Value)) (inFix : Bytes) :
    MetaGetAllLists store size alwaysFlush first puts rank before inFix ↔
      InFixSelects size rank front inFix ∧ ∀ key, inFix <+: key → lastOwn rank front key = lastOwn rank puts key := by
  obtain ⟨retValue, answer⟩ :=
    metaGetAll_scans rank alwaysFlush (fun put member => clean put (within put member)) scans before inFix
  rw [← scan_picks_iff inside (fun put member => ranks put (within put member)),
    ← listsOwn_scan_iff inside ranks within]
  simp only [MetaGetAllLists, stored, Option.some.injEq, exists_and_left, exists_eq_left', answer, Prod.mk.injEq,
    List.append_cancel_left_eq]
  constructor
  · rintro ⟨_, pairs, ⟨-, rfl⟩, own⟩
    exact own
  · exact fun own => ⟨retValue, _, ⟨rfl, rfl⟩, own⟩

/-- `metaGetAll` lists a rank's own metadata exactly when no key of a client has a NUL, `inFix` selects the rank's own
metadata among what the store shows of the history, and the store shows the last value of each of these keys. A store
that shows all of the history, such as RocksDB's, needs only that `inFix` selects the rank's own metadata. -/
theorem metaGetAll_lists_iff {σ : Type*} {store : LSMIOStore σ} {shown settled : σ → StoreMap}
    (deferring : store.Deferring shown settled) {first : σ} (fresh : shown first = ∅ ∧ settled first = ∅)
    {size rank : Nat} (inside : rank < size) (alwaysFlush : Bool) {puts : List MetaPut}
    (ranks : ∀ put ∈ puts, put.rank < size) (clean : ∀ put ∈ puts, put.Clean) (before : List (Key × Value))
    (inFix : Bytes) :
    ((∀ s, metaHistory store size alwaysFlush first puts = some s → shown s = settled s) →
      (MetaGetAllLists store size alwaysFlush first puts rank before inFix ↔
        (∀ put ∈ puts, put.rank ≠ 0 → 0 ∉ put.key) ∧ InFixSelects size rank puts inFix)) ∧
    (MetaGetAllLists store size alwaysFlush first puts rank before inFix ↔
      (∀ put ∈ puts, put.rank ≠ 0 → 0 ∉ put.key) ∧ ∃ front, front <+: puts ∧
        (∀ s, metaHistory store size alwaysFlush first puts = some s → shown s = namedStore size front) ∧
        InFixSelects size rank front inFix ∧ ∀ key, inFix <+: key →
        lastOwn rank front key = lastOwn rank puts key) := by
  rcases metaHistory_cases deferring fresh size alwaysFlush clean with
    ⟨⟨put, member, client, hidden⟩, lost⟩ | ⟨readable, s, seen, stored, settles, isFront, shows⟩
  · have unread : ¬ MetaGetAllLists store size alwaysFlush first puts rank before inFix := by
      simp [MetaGetAllLists, lost]
    have unreadable : ¬ ∀ put ∈ puts, put.rank ≠ 0 → 0 ∉ put.key := fun all => all put member client hidden
    exact ⟨fun _ => by simp only [unread, unreadable, false_and], by simp only [unread, unreadable, false_and]⟩
  have lists : ∀ front, (∀ put ∈ front, put ∈ puts) → shown s = namedStore size front →
      (MetaGetAllLists store size alwaysFlush first puts rank before inFix ↔ InFixSelects size rank front inFix ∧
        ∀ key, inFix <+: key → lastOwn rank front key = lastOwn rank puts key) := by
    intro front within shows
    refine metaGetAll_lists_of_scans inside ranks clean stored within (fun infixOfScan => ?_) before inFix
    rw [← shows]
    exact congrArg Prod.snd (deferring.getPrefix s _)
  refine ⟨fun nothing => ?_, ?_⟩
  · rw [lists puts (fun _ member => member) ((nothing s stored).trans settles), and_iff_right readable]
    simp
  · rw [and_iff_right readable]
    constructor
    · intro own
      refine ⟨seen, isFront, fun s' stored' => ?_, (lists seen isFront.subset shows).mp own⟩
      rw [← Option.some.inj (stored.symm.trans stored'), shows]
    · rintro ⟨front, isFront', shows', selects⟩
      exact (lists front isFront'.subset (shows' s stored)).mpr selects

theorem metaGetAll_lists_client :
    MetaGetAllLists StoreRDB.store 3 true ⟨∅⟩
      [⟨0, ascii "g", [7], true⟩, ⟨2, ascii "var", [8], true⟩, ⟨2, ascii "vat", [9], true⟩] 2 [] (ascii "va") :=
  ((metaGetAll_lists_iff StoreRDB.deferring ⟨rfl, rfl⟩ (by decide) true (by decide) (by decide +kernel) []
    (ascii "va")).1
    fun _ _ => rfl).mpr (by decide +kernel)

/-- The aggregator of two clients asks for all its metadata and gets that of a client. -/
theorem not_metaGetAll_lists : ¬ ∀ (size rank : Nat) (alwaysFlush : Bool) (puts : List MetaPut)
    (before : List (Key × Value)) (inFix : Bytes), rank < size → (∀ put ∈ puts, put.rank < size) →
      (∀ put ∈ puts, put.Clean) → MetaGetAllLists StoreRDB.store size alwaysFlush ⟨∅⟩ puts rank before inFix := by
  intro always
  obtain ⟨s, retValue, pairs, stored, appended, -, own⟩ :=
    always 3 0 true [⟨1, ascii "k", [7], true⟩] [] [] (by decide) (by decide) (by decide +kernel)
  have foreign : (((metaHistory StoreRDB.store 3 true ⟨∅⟩ [⟨1, ascii "k", [7], true⟩]).bind fun s =>
      (LSMIOManager.ofRank 3 0).metaGetAll StoreRDB.store true s [] []).any fun result => result.2.length = 1) =
      true := by
    decide +kernel
  rw [stored, Option.bind_some, appended] at foreign
  obtain ⟨entry, rfl⟩ := List.length_eq_one_iff.mp (by simpa using foreign)
  obtain ⟨key, -, -, last⟩ := (own entry).mp (by simp)
  simp [lastOwn] at last

end LSMIO
