import LSMIO.RecordLoop

namespace LSMIO

/-- A directory after a crash: complete files, oldest first, the file that was
being written, of which the first `cut` bytes remain, and files of the pool not yet written. -/
structure Crash where
  older : List (Nat × List (Key × Value))
  id : Nat
  data : List (Key × Value)
  cut : Nat
  unused : List Nat

namespace Crash

/-- The mutations flushed into the complete files. -/
def flushed (c : Crash) : List (Key × Value) := (c.older.map (·.2)).flatten

/-- The whole mutation history, of which the last part was being written. -/
def history (c : Crash) : List (Key × Value) := c.flushed ++ c.data

def files (c : Crash) : Files :=
  c.older.map (fun file => (file.1, encodeRecords file.2)) ++
    (c.id, (encodeRecords c.data).take c.cut) :: c.unused.map fun id => (id, [])

/-- The mutations of the last file whose records are whole. -/
def written (c : Crash) : List (Key × Value) := (cutRecords c.data c.cut).1

/-- The key of the record whose value is torn. -/
def torn (c : Crash) : Option Key := (cutRecords c.data c.cut).2

/-- The files are numbered in the order in which they were taken from the
pool, every mutation fits the record format, and the directory holds and lists the files. -/
structure Leaves (c : Crash) (dir : Directory) (listed : List (FileName × Bytes)) : Prop where
  numbered : c.files.Numbered
  short : ∀ entry ∈ c.history, Short entry
  stored : ∀ file ∈ c.files, dir[fileName file.1]? = some file.2
  listing : listed.Perm c.files.entries

/-- The contents after recovery are those of some prefix of the history. -/
def PrefixConsistent (c : Crash) (dir : Directory) (listed : List (FileName × Bytes)) : Prop :=
  ∃ n, ∀ key, visible (SSTableManager.get (readValueAt dir) (recoverState listed).1 key) =
    contents (c.history.take n) key

variable {c : Crash} {dir : Directory} {listed : List (FileName × Bytes)}

/-- What recovery makes visible: the complete files, and of the last file the
whole records, less those of the key whose value is torn. -/
theorem Leaves.get_eq (leaves : c.Leaves dir listed) (key : Key) :
    SSTableManager.get (readValueAt dir) (recoverState listed).1 key =
      lastValue (c.flushed ++ survivors (c.written, c.torn)) key := by
  have shortOlder : ∀ entry ∈ (c.older.map (·.2)).flatten, Short entry := fun entry member =>
    leaves.short entry (List.mem_append_left _ member)
  have shortData : ∀ entry ∈ c.data, Short entry :=
    fun entry member => leaves.short entry (List.mem_append_right _ member)
  have storedOlder : ∀ file ∈ c.older, dir[fileName file.1]? = some (encodeRecords file.2) := fun file member =>
    leaves.stored (file.1, encodeRecords file.2) (List.mem_append_left _ (List.mem_map_of_mem member))
  have storedCut : dir[fileName c.id]? = some ((encodeRecords c.data).take c.cut) :=
    leaves.stored (c.id, _) (List.mem_append_right _ (List.mem_cons_self ..))
  have storedUnused : ∀ file ∈ c.unused.map fun id => (id, ([] : List (Key × Value))),
      dir[fileName file.1]? = some (encodeRecords file.2) := by
    intro file member
    obtain ⟨id, inUnused, rfl⟩ := List.mem_map.mp member
    exact leaves.stored (id, []) (List.mem_append_right _ (List.mem_cons_of_mem _ (List.mem_map_of_mem inUnused)))
  have noEntries : ((c.unused.map fun id => (id, ([] : List (Key × Value)))).map (·.2)).flatten = [] := by
    simp [List.flatten_eq_nil_iff]
  have head : (recoverState listed).1 =
      ((c.unused.map fun id => (id, ([] : List (Key × Value)))).map fun file =>
        recoverIndex (fileName file.1) (encodeRecords file.2)).reverse ++
      (recoverIndex (fileName c.id) ((encodeRecords c.data).take c.cut) ::
        ((c.older.map fun file => recoverIndex (fileName file.1) (encodeRecords file.2)).reverse ++ [])) := by
    rw [leaves.numbered.recoverState_head leaves.listing, files]
    simp [Function.comp_def]
  rw [head, get_recovered _ storedUnused (by simp), noEntries, lastValue_nil, Option.none_or,
    SSTableManager.get_cons, lookup_cut shortData storedCut, get_recovered _ storedOlder shortOlder, lastValue_append]
  simp [SSTableManager.get, flushed, written, torn]

/-- The history up to the last whole record. -/
theorem take_whole (c : Crash) : c.history.take (c.flushed ++ c.written).length = c.flushed ++ c.written := by
  obtain ⟨rest, split⟩ := cutRecords_isFront c.data c.cut
  rw [history, ← split, ← List.append_assoc]
  exact List.take_left

/-- Recovery is prefix-consistent exactly when no value is torn, or the torn
record's key has no whole record in the same file, or at some point of the
history this key held what it held before the file, and every other key what it
holds after the last whole record. -/
theorem prefixConsistent_iff (leaves : c.Leaves dir listed) :
    c.PrefixConsistent dir listed ↔ ∀ key, c.torn = some key →
      (∀ value, (key, value) ∉ c.written) ∨
        ∃ n, ∀ other, contents (c.history.take n) other =
          if other = key then contents c.flushed key else contents (c.flushed ++ c.written) other := by
  have visibly : ∀ key, visible (SSTableManager.get (readValueAt dir) (recoverState listed).1 key) =
      contents (c.flushed ++ survivors (c.written, c.torn)) key := fun key => congrArg visible (leaves.get_eq key)
  simp only [PrefixConsistent, visibly]
  cases tear : c.torn with
  | none =>
    simp only [survivors, reduceCtorEq, false_implies, implies_true, iff_true]
    exact ⟨(c.flushed ++ c.written).length, fun key => by rw [take_whole]⟩
  | some key =>
    have hidden : ∀ other, contents (c.flushed ++ survivors (c.written, some key)) other =
        if other = key then contents c.flushed key else contents (c.flushed ++ c.written) other := by
      intro other
      rw [contents, lastValue_append, survivors, lastValue_filter]
      split
      next here => rw [here, Option.none_or, contents]
      next => rw [contents, lastValue_append]
    simp only [hidden, Option.some.injEq, forall_eq']
    constructor
    · rintro ⟨n, same⟩
      exact .inr ⟨n, fun other => (same other).symm⟩
    · rintro (absent | ⟨n, same⟩)
      · refine ⟨(c.flushed ++ c.written).length, fun other => ?_⟩
        rw [take_whole]
        split
        next here =>
          rw [here, contents, contents, lastValue_append, lastValue_eq_none_iff.mpr absent, Option.none_or]
        next => rfl
      · exact ⟨n, fun other => (same other).symm⟩

/-- A file cut within its second record, of another key than the first. -/
theorem prefixConsistent_once : PrefixConsistent ⟨[], 1, [([1], [7]), ([2], [8])], 19, []⟩
    (Std.ExtTreeMap.ofList [(fileName 1, (encodeRecords [([1], [7]), ([2], [8])]).take 19)])
    [(fileName 1, (encodeRecords [([1], [7]), ([2], [8])]).take 19)] := by
  refine (prefixConsistent_iff ⟨⟨by decide, by decide⟩, by decide, ?_, .refl _⟩).mpr ?_
  · intro file member
    rw [List.mem_singleton.mp member]
    decide +kernel
  · intro key torn
    have same : some [2] = some key := torn
    cases same
    exact .inl fun value member => by simp [written, cutRecords] at member

/-- The third record of a file is torn and has the key of the first: recovery
shows the second mutation, but not the first one. -/
theorem not_prefixConsistent : ¬ ∀ (c : Crash) (dir : Directory) (listed : List (FileName × Bytes)),
    c.Leaves dir listed → c.PrefixConsistent dir listed := by
  intro always
  obtain ⟨n, same⟩ := always ⟨[], 1, [([1], [7]), ([2], [8]), ([1], [9])], 29, []⟩
    (Std.ExtTreeMap.ofList [(fileName 1, (encodeRecords [([1], [7]), ([2], [8]), ([1], [9])]).take 29)])
    [(fileName 1, (encodeRecords [([1], [7]), ([2], [8]), ([1], [9])]).take 29)]
    ⟨⟨by decide, by decide⟩, by decide, (by
      intro file member
      rw [List.mem_singleton.mp member]
      decide +kernel), .refl _⟩
  have second := (same [2]).symm.trans (show _ = some [8] by decide +kernel)
  have first := (same [1]).symm.trans (show _ = none by decide +kernel)
  have whole : (history ⟨[], 1, [([1], [7]), ([2], [8]), ([1], [9])], 29, []⟩) =
    [([1], [7]), ([2], [8]), ([1], [9])] := rfl
  rw [whole] at first second
  match n with
  | 0 => exact absurd second (by decide)
  | 1 => exact absurd second (by decide)
  | 2 => exact absurd first (by decide)
  | n + 3 =>
    rw [List.take_of_length_le (by simp)] at first
    exact absurd first (by decide)

end Crash

end LSMIO
