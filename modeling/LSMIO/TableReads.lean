import LSMIO.SSTable

namespace LSMIO

/-- The key is in neither accumulator of a scan. -/
def Unseen (acc : Results × DeletedKeys) (key : Key) : Prop := acc.1[key]? = none ∧ key ∉ acc.2

/-- No key is both a result and deleted. -/
def DisjointKeys (acc : Results × DeletedKeys) : Prop := ∀ key, acc.1[key]? = none ∨ key ∉ acc.2

theorem unseen_iff {acc : Results × DeletedKeys} {key : Key} : Unseen acc key ↔ shown acc key = (none, false) := by
  simp [Unseen, shown]

theorem shownAs_eq_some_iff {answer : Option Value} {value : Value} :
    (shownAs answer).1 = some value ↔ answer = some value ∧ value ≠ MEMTABLE_TOMBSTONE := by
  cases answer with
  | none => simp [shownAs]
  | some stored =>
    by_cases dead : stored = MEMTABLE_TOMBSTONE
    · simp only [shownAs, dead, if_true, reduceCtorEq, false_iff, not_and, not_not]
      exact fun same => (Option.some.inj same).symm
    · simp only [shownAs, dead, if_false, Option.some.injEq, iff_self_and]
      exact fun same => same ▸ dead

theorem shownAs_deleted_iff {answer : Option Value} :
    (shownAs answer).2 = true ↔ answer = some MEMTABLE_TOMBSTONE := by
  cases answer with
  | none => simp [shownAs]
  | some stored => by_cases dead : stored = MEMTABLE_TOMBSTONE <;> simp [shownAs, dead]

namespace SSTableManager

variable (read : Reader)

section Scan

variable (head : List L0Index) {prefixKey key : Key} {acc : Results × DeletedKeys}

theorem scan_getElem? : (scan read head prefixKey acc).1.1[key]? = (shown (scan read head prefixKey acc).1 key).1 := rfl

theorem mem_scan_iff : key ∈ (scan read head prefixKey acc).1.2 ↔
    (shown (scan read head prefixKey acc).1 key).2 = true := by
  simp [shown]

/-- A key without the prefix, or seen before, stays as it was. -/
theorem shown_scan_kept (kept : prefixKey <+: key → ¬ Unseen acc key) :
    shown (scan read head prefixKey acc).1 key = shown acc key := by
  rw [shown_scan]
  split
  next starts => rw [settle, if_neg fun unseen => kept starts (unseen_iff.mpr unseen)]
  next => rfl

/-- A key with the prefix, not seen before, comes out as `get` answers for it. -/
theorem shown_scan_added (starts : prefixKey <+: key) (unseen : Unseen acc key) :
    shown (scan read head prefixKey acc).1 key = shownAs (get read head key) := by
  rw [shown_scan, if_pos starts, settle, if_pos (unseen_iff.mp unseen)]

/-- The scan of the tables is the merged view: seen keys are left alone, each
other key with the prefix is added as `get` answers for it, and no further key is added. -/
theorem scan_merged (prefixKey : Key) (acc : Results × DeletedKeys) (disjoint : DisjointKeys acc) :
    DisjointKeys (scan read head prefixKey acc).1 ∧ ∀ key,
      (¬ Unseen acc key → (scan read head prefixKey acc).1.1[key]? = acc.1[key]? ∧
        (key ∈ (scan read head prefixKey acc).1.2 ↔ key ∈ acc.2)) ∧
      (Unseen acc key → prefixKey <+: key →
        (∀ value, (scan read head prefixKey acc).1.1[key]? = some value ↔
          get read head key = some value ∧ value ≠ MEMTABLE_TOMBSTONE) ∧
        (key ∈ (scan read head prefixKey acc).1.2 ↔ get read head key = some MEMTABLE_TOMBSTONE)) ∧
      (Unseen acc key → ¬ prefixKey <+: key → Unseen (scan read head prefixKey acc).1 key) := by
  have kept : ∀ key, (prefixKey <+: key → ¬ Unseen acc key) → (scan read head prefixKey acc).1.1[key]? = acc.1[key]? ∧
      (key ∈ (scan read head prefixKey acc).1.2 ↔ key ∈ acc.2) := by
    intro key before
    have same := shown_scan_kept read head before
    simp only [shown, Prod.mk.injEq, decide_eq_decide] at same
    exact same
  have added : ∀ key, Unseen acc key → prefixKey <+: key →
      (∀ value, (scan read head prefixKey acc).1.1[key]? = some value ↔
        get read head key = some value ∧ value ≠ MEMTABLE_TOMBSTONE) ∧
      (key ∈ (scan read head prefixKey acc).1.2 ↔ get read head key = some MEMTABLE_TOMBSTONE) := by
    intro key unseen starts
    rw [scan_getElem?, mem_scan_iff, shown_scan_added read head starts unseen]
    exact ⟨fun value => shownAs_eq_some_iff, shownAs_deleted_iff⟩
  refine ⟨fun key => ?_, fun key => ⟨fun seen => kept key fun _ => seen, added key, fun unseen other => ?_⟩⟩
  · by_cases new : prefixKey <+: key ∧ Unseen acc key
    · obtain ⟨results, deleted⟩ := added key new.2 new.1
      rw [deleted, or_iff_not_imp_right, not_not]
      intro dead
      rw [Option.eq_none_iff_forall_ne_some]
      intro value found
      obtain ⟨answer, live⟩ := (results value).mp found
      exact live (Option.some.inj (answer.symm.trans dead))
    · obtain ⟨results, deleted⟩ := kept key fun starts unseen => new ⟨starts, unseen⟩
      rw [results, deleted]
      exact disjoint key
  · obtain ⟨results, deleted⟩ := kept key fun starts => absurd starts other
    exact ⟨results.trans unseen.1, fun member => unseen.2 (deleted.mp member)⟩

end Scan

/-- Two tables hold the key 1, the newer one as deleted; the older one alone holds 2, and 3 and 4, which the memtables
have replaced and deleted. -/
theorem scan_merged_two :
    ([2] : Key) ∉ (scan (fun path _ _ => some (if path = [0] then MEMTABLE_TOMBSTONE else [7]))
      [L0Index.build [0] [([1], 0)], L0Index.build [9] [([1], 0), ([2], 9), ([3], 18), ([4], 27)]] []
      ((∅ : Results).insert [3] [5], (∅ : DeletedKeys).insert [4])).1.2 ∧
    (scan (fun path _ _ => some (if path = [0] then MEMTABLE_TOMBSTONE else [7]))
      [L0Index.build [0] [([1], 0)], L0Index.build [9] [([1], 0), ([2], 9), ([3], 18), ([4], 27)]] []
      ((∅ : Results).insert [3] [5], (∅ : DeletedKeys).insert [4])).1.1[([3] : Key)]? = some [5] := by
  have disjoint : DisjointKeys ((∅ : Results).insert [3] [5], (∅ : DeletedKeys).insert [4]) := by
    intro key
    by_cases here : key = [3]
    · subst here
      exact .inr (by decide +kernel)
    · exact .inl (by simp [Ne.symm here])
  have merged := (scan_merged (fun path _ _ => some (if path = [0] then MEMTABLE_TOMBSTONE else [7]))
    [L0Index.build [0] [([1], 0)], L0Index.build [9] [([1], 0), ([2], 9), ([3], 18), ([4], 27)]] [] _ disjoint).2
  have answer : get (fun path _ _ => some (if path = [0] then MEMTABLE_TOMBSTONE else [7]))
      [L0Index.build [0] [([1], 0)], L0Index.build [9] [([1], 0), ([2], 9), ([3], 18), ([4], 27)]] [2] = some [7] := by
    decide +kernel
  constructor
  · have unseen : Unseen ((∅ : Results).insert [3] [5], (∅ : DeletedKeys).insert [4]) [2] := by
      constructor <;> decide +kernel
    rw [((merged [2]).2.1 unseen (List.nil_prefix ..)).2, answer]
    decide +kernel
  · have seen : ¬ Unseen ((∅ : Results).insert [3] [5], (∅ : DeletedKeys).insert [4]) [3] := fun unseen => by
      have absent := unseen.1
      revert absent
      decide +kernel
    rw [((merged [3]).1 seen).1]
    decide +kernel

section Failures

/-- Reads of which some fail: the record at an offset is what was written there. -/
def failing (record : FileName → Nat → Key → Value) (fails : FileName → Nat → Key → Bool) : Reader :=
  fun path offset key => if fails path offset key then none else some (record path offset key)

/-- Where the tables have a record of the key, newest table first. -/
def holders (head : List L0Index) (key : Key) : List (FileName × Nat) :=
  head.filterMap fun index => (index.offsets.find key).map fun offset => (index.path, offset)

/-- The value or tombstone recorded in the newest index that has the key. -/
def newestRecord (record : FileName → Nat → Key → Value) (head : List L0Index) (key : Key) : Option Value :=
  (holders head key).head?.map fun holder => record holder.1 holder.2 key

/-- What `get` and `scan` yield for the key is the newest record, if they yield anything. -/
def NeverSuperseded (record : FileName → Nat → Key → Value) (fails : FileName → Nat → Key → Bool)
    (head : List L0Index) (key : Key) : Prop :=
  (∀ value, get (failing record fails) head key = some value → newestRecord record head key = some value) ∧
    ∀ prefixKey acc, prefixKey <+: key → Unseen acc key →
      (∀ value, (scan (failing record fails) head prefixKey acc).1.1[key]? = some value →
        newestRecord record head key = some value) ∧
      (key ∈ (scan (failing record fails) head prefixKey acc).1.2 →
        newestRecord record head key = some MEMTABLE_TOMBSTONE)

variable {record : FileName → Nat → Key → Value} {fails : FileName → Nat → Key → Bool} {head : List L0Index} {key : Key}

/-- The tables without the key take no part in the search. -/
theorem get_eq_findSome? : get read head key = (holders head key).findSome? fun holder =>
    read holder.1 holder.2 key := by
  induction head with
  | nil => rfl
  | cons curr next ih =>
    rw [get_cons, ih, lookup]
    cases found : curr.offsets.find key with
    | none => simp [holders, found]
    | some offset =>
      have first : holders (curr :: next) key = (curr.path, offset) :: holders next key := by simp [holders, found]
      rw [first, List.findSome?_cons, Option.bind_some]
      cases read curr.path offset key <;> rfl

/-- The first record that can be read is the answer. -/
theorem get_failing : get (failing record fails) head key =
    ((holders head key).find? fun holder => !fails holder.1 holder.2 key).map fun holder =>
      record holder.1 holder.2 key := by
  rw [get_eq_findSome?]
  induction holders head key with
  | nil => rfl
  | cons holder older ih =>
    rw [List.findSome?_cons, List.find?_cons, ih]
    cases failed : fails holder.1 holder.2 key <;> simp [failing, failed]

/-- The scan yields of a key what `get` yields, so the point lookup decides for both. -/
theorem neverSuperseded_iff_get : NeverSuperseded record fails head key ↔
    ∀ value, get (failing record fails) head key = some value → newestRecord record head key = some value := by
  refine ⟨fun never => never.1, fun never => ⟨never, fun prefixKey acc starts unseen => ?_⟩⟩
  rw [mem_scan_iff]
  simp only [scan_getElem?, shown_scan_added _ head starts unseen]
  exact ⟨fun value found => never value (shownAs_eq_some_iff.mp found).1, fun dead =>
    never _ (shownAs_deleted_iff.mp dead)⟩

/-- Reads expose no superseded record of the key exactly when a failing read
of its newest record leaves no older record that can be read, or one with the same value. -/
theorem neverSuperseded_iff (record : FileName → Nat → Key → Value) (fails : FileName → Nat → Key → Bool)
    (head : List L0Index) (key : Key) : NeverSuperseded record fails head key ↔
      ∀ newest older, holders head key = newest :: older → fails newest.1 newest.2 key = true →
        ∀ holder, (older.find? fun holder => !fails holder.1 holder.2 key) = some holder →
          record holder.1 holder.2 key = record newest.1 newest.2 key := by
  rw [neverSuperseded_iff_get, get_failing, newestRecord]
  cases held : holders head key with
  | nil => simp
  | cons newest older =>
    rw [List.find?_cons]
    cases failed : fails newest.1 newest.2 key with
    | false => simp [failed]
    | true =>
      simp only [Bool.not_true, Option.map_eq_some_iff, List.head?_cons, Option.map_some, Option.some.injEq,
        List.cons.injEq, forall_exists_index, and_imp]
      constructor
      · rintro never _ _ rfl rfl - holder found
        exact (never _ holder found rfl).symm
      · rintro only _ holder found rfl
        exact (only newest older rfl rfl failed holder found).symm

/-- The newer of two files cannot be opened, and the overwritten value comes back. -/
theorem not_neverSuperseded : ¬ ∀ (record : FileName → Nat → Key → Value) (fails : FileName → Nat → Key → Bool)
    (head : List L0Index) (key : Key), NeverSuperseded record fails head key := by
  intro always
  have never := (always (fun path _ _ => if path = [2] then [8] else [7]) (fun path _ _ => path = [2])
    [L0Index.build [2] [([1], 0)], L0Index.build [1] [([1], 0)]] [1]).1 [7]
  exact absurd (never (by decide +kernel)) (by decide +kernel)

end Failures

end SSTableManager

end LSMIO
