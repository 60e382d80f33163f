import LSMIO.StoreInvariant

namespace LSMIO

/-- The stored value is determined by what a caller sees of it. -/
theorem visible_some_inj {stored stored' : Value} :
    visible (some stored) = visible (some stored') ↔ stored = stored' := by
  refine ⟨fun same => ?_, fun same => same ▸ rfl⟩
  rw [visible_some, visible_some] at same
  split at same
  next dead =>
    split at same
    next dead' => rw [dead, dead']
    next => cases same
  next =>
    split at same
    next => cases same
    next => exact Option.some.inj same

theorem visible_eq_some_iff {stored : Option Value} {value : Value} :
    visible stored = some value ↔ stored = some value ∧ value ≠ MEMTABLE_TOMBSTONE := by
  simp [visible, Option.filter_eq_some_iff]

namespace Consistent

variable {acc : Results × DeletedKeys}

theorem mem_toList_iff (consistent : Consistent acc) {key : Key} {value : Value} :
    (key, value) ∈ acc.1.toList ↔ visible (recorded acc key) = some value := by
  rw [Std.ExtTreeMap.mem_toList_iff_getElem?_eq_some, visible_eq_some_iff]
  constructor
  · intro found
    have live := (consistent key value found).2
    exact ⟨(consistent.recorded_eq_some_iff live).mpr found, live⟩
  · rintro ⟨found, live⟩
    exact (consistent.recorded_eq_some_iff live).mp found

/-- No result is taken back by the set of deleted keys. -/
theorem filter_toList (consistent : Consistent acc) :
    (acc.1.toList.filter fun entry => entry.1 ∉ acc.2) = acc.1.toList := by
  rw [List.filter_eq_self]
  intro entry member
  have found := Std.ExtTreeMap.mem_toList_iff_getElem?_eq_some.mp (show (entry.1, entry.2) ∈ acc.1.toList from member)
  simpa using (consistent entry.1 entry.2 found).1

end Consistent

namespace State

/-- `getPrefix` gives what `get` gives: the pairs in strictly ascending key
order, exactly those under the prefix that `get` finds, and a flag that says whether there are any. -/
def PrefixAgrees (s : State) (prefixKey : Key) : Prop :=
  (s.getPrefix prefixKey).1.Pairwise (fun a b => compare a.1 b.1 = .lt) ∧
    (∀ key value, (key, value) ∈ (s.getPrefix prefixKey).1 ↔ prefixKey <+: key ∧ s.get key = some value) ∧
    ((s.getPrefix prefixKey).2 = true ↔ (s.getPrefix prefixKey).1 ≠ [])

/-- The last value of a key in the oldest memtable that holds it. -/
def oldestMemtableGet (s : State) (key : Key) : Option Value :=
  (s.active :: s.immutables.reverse).reverse.findSome? fun m => m.get key

/-- Tables scanned one after the other: each overwrites the ones before. -/
theorem scanTables_spec (prefixKey : Key) (tables : List Memtable) {acc : Results × DeletedKeys}
    (consistent : Consistent acc) :
    Consistent (tables.foldl (fun acc m => m.scan prefixKey acc) acc) ∧
      ∀ key, recorded (tables.foldl (fun acc m => m.scan prefixKey acc) acc) key =
        if prefixKey <+: key then (tables.reverse.findSome? fun m => m.get key).or (recorded acc key)
        else recorded acc key := by
  induction tables generalizing acc with
  | nil => exact ⟨consistent, fun key => by simp⟩
  | cons m tables ih =>
    obtain ⟨consistent', first⟩ := m.scan_spec prefixKey consistent
    obtain ⟨consistent'', rest⟩ := ih consistent'
    refine ⟨consistent'', fun key => ?_⟩
    rw [List.foldl_cons, rest, first, List.reverse_cons, List.findSome?_append]
    split
    · rw [Option.or_assoc]
      congr 2
      simp
    · rfl

/-- What `getPrefix` records of a key with the prefix: the value in the oldest
memtable that holds it, and only without one the answer of the tables. -/
theorem getPrefix_spec (s : State) (prefixKey : Key) : ∃ acc : Results × DeletedKeys, Consistent acc ∧
    s.getPrefix prefixKey = (acc.1.toList, !acc.1.toList.isEmpty) ∧
    ∀ key, recorded acc key =
      if prefixKey <+: key then (s.oldestMemtableGet key).or (s.sstableGet key) else none := by
  obtain ⟨consistent, inMemory⟩ := scanTables_spec prefixKey (s.active :: s.immutables.reverse) consistent_empty
  obtain ⟨consistent', scanned⟩ := SSTableManager.scan_spec (readValueAt s.dir) prefixKey consistent s.head
  refine ⟨_, consistent', ?_, fun key => ?_⟩
  · rw [getPrefix]
    exact congrArg₂ Prod.mk consistent'.filter_toList rfl
  · have nothing : recorded (∅, ∅) key = none := by simp [recorded]
    rw [scanned, inMemory, nothing, Option.or_none]
    split
    · rfl
    · rfl

theorem mem_getPrefix_iff (s : State) (prefixKey key : Key) (value : Value) :
    (key, value) ∈ (s.getPrefix prefixKey).1 ↔
      prefixKey <+: key ∧ visible ((s.oldestMemtableGet key).or (s.sstableGet key)) = some value := by
  obtain ⟨acc, consistent, result, found⟩ := s.getPrefix_spec prefixKey
  rw [result, consistent.mem_toList_iff, found]
  split
  next starts => simp [starts]
  next starts => simp [starts, visible]

theorem getPrefix_ascending (s : State) (prefixKey : Key) :
    (s.getPrefix prefixKey).1.Pairwise fun a b => compare a.1 b.1 = .lt := by
  obtain ⟨acc, -, result, -⟩ := s.getPrefix_spec prefixKey
  rw [result]
  exact Std.ExtTreeMap.ordered_keys_toList

theorem getPrefix_flag (s : State) (prefixKey : Key) :
    (s.getPrefix prefixKey).2 = true ↔ (s.getPrefix prefixKey).1 ≠ [] := by
  obtain ⟨acc, -, result, -⟩ := s.getPrefix_spec prefixKey
  rw [result]
  simp

theorem oldestMemtableGet_isSome (s : State) (key : Key) :
    (s.oldestMemtableGet key).isSome = (s.memtableGet key).isSome := by
  rw [oldestMemtableGet, memtableGet, Bool.eq_iff_iff, List.findSome?_isSome_iff, List.findSome?_isSome_iff]
  simp only [List.mem_reverse]

/-- `getPrefix` agrees with `get` exactly when, for every key under the prefix,
the oldest memtable that holds the key has the value of the newest one. -/
theorem prefixAgrees_iff (s : State) (prefixKey : Key) :
    s.PrefixAgrees prefixKey ↔ ∀ key, prefixKey <+: key → s.oldestMemtableGet key = s.memtableGet key := by
  have pairs : s.PrefixAgrees prefixKey ↔ ∀ key, prefixKey <+: key →
      visible ((s.oldestMemtableGet key).or (s.sstableGet key)) = s.get key := by
    constructor
    · rintro ⟨-, agrees, -⟩ key starts
      refine Option.ext fun value => ?_
      have here := agrees key value
      rw [mem_getPrefix_iff] at here
      simpa [starts] using here
    · intro agrees
      refine ⟨s.getPrefix_ascending prefixKey, fun key value => ?_, s.getPrefix_flag prefixKey⟩
      rw [mem_getPrefix_iff]
      exact and_congr_right fun starts => by rw [agrees key starts]
  rw [pairs]
  refine forall₂_congr fun key _ => ?_
  have both := s.oldestMemtableGet_isSome key
  rw [get]
  cases oldest : s.oldestMemtableGet key with
  | none =>
    cases newest : s.memtableGet key with
    | none => simp
    | some stored => simp [oldest, newest] at both
  | some stored =>
    cases newest : s.memtableGet key with
    | none => simp [oldest, newest] at both
    | some stored' => simp only [Option.some_or, visible_some_inj, Option.some.injEq]

/-- Two puts of one key with a rotation of the memtable between them: the scan brings back the first. -/
theorem not_prefixAgrees : ¬ ∀ (cfg : Config) (dir : Directory) (entries : List (FileName × Bytes)) (trace : List Event)
    (s : State), Run (Allowed (step cfg) fun _ e => e.intact = true) (openStore cfg dir entries) trace s →
      s.flushInProgress = false → ∀ prefixKey, s.PrefixAgrees prefixKey := by
  intro always
  obtain ⟨s, run, quiet, found, listed⟩ : ∃ s, Run (Allowed (step ⟨2, 4, 2, 0⟩) fun _ e => e.intact = true)
      (openStore ⟨2, 4, 2, 0⟩ ∅ []) [.call 0 (.put [1] [7] false), .ret 0 (.put [1] [7] false) (.bool true),
        .call 0 (.put [1] [8] false), .ret 0 (.put [1] [8] false) (.bool true)] s ∧
      s.flushInProgress = false ∧ s.get [1] = some [8] ∧ ([1], [8]) ∉ (s.getPrefix [1]).1 :=
    Run.exists_of_any (by decide +kernel)
  obtain ⟨-, agrees, -⟩ := always _ _ _ _ s run quiet [1]
  exact listed ((agrees [1] [8]).mpr ⟨List.prefix_refl _, found⟩)

end State

end LSMIO
