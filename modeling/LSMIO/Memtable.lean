import LSMIO.Library.AppendLog
import LSMIO.Library.Decimal
import LSMIO.Library.OrderedMap

namespace LSMIO

abbrev Key := Bytes
abbrev Value := Bytes

/-- The value that stands for a deletion in memtables and in files. -/
def MEMTABLE_TOMBSTONE : Value := ascii "__LSM_TOMBSTONE_v1__"

/-- What a caller sees of a stored value: a tombstone is an absent key. -/
def visible (stored : Option Value) : Option Value := stored.filter (· ≠ MEMTABLE_TOMBSTONE)

@[simp] theorem visible_none : visible none = none := rfl

theorem visible_some (stored : Value) :
    visible (some stored) = if stored = MEMTABLE_TOMBSTONE then none else some stored := by
  simp [visible, Option.filter_some]

/-- What the mutations of a log leave under a key, deletions read as absence. -/
def contents (log : List (Key × Value)) (key : Key) : Option Value := visible (lastValue log key)

/-- The append log of the writes in memory. `_size_bytes` is carried with
its meaning, the sum of the sizes of the entries. -/
structure Memtable where
  data : List (Key × Value)
  sizeBytes : Nat
  sizeBytes_eq : sizeBytes = (data.map fun entry => entry.1.length + entry.2.length).sum

abbrev Results := Std.ExtTreeMap Key Value
abbrev DeletedKeys := Std.ExtTreeSet Key

namespace Memtable

def new : Memtable := ⟨[], 0, rfl⟩

def add (m : Memtable) (key : Key) (value : Value) : Memtable where
  data := m.data ++ [(key, value)]
  sizeBytes := m.sizeBytes + (key.length + value.length)
  sizeBytes_eq := by simp [m.sizeBytes_eq]

/-- Reverse scan, newest first. -/
def get (m : Memtable) (key : Key) : Option Value := (m.data.reverse.find? fun entry => entry.1 = key).map (·.2)

def empty (m : Memtable) : Bool := m.data.isEmpty

def count (m : Memtable) : Nat := m.data.length

/-- One entry of the linear scan: a tombstone takes the key out of the
results, any other value takes it out of the deleted keys. -/
def scanEntry (prefixKey : Key) (acc : Results × DeletedKeys) (entry : Key × Value) : Results × DeletedKeys :=
  if prefixKey.isPrefixOf entry.1 then
    if entry.2 = MEMTABLE_TOMBSTONE then (acc.1.erase entry.1, acc.2.insert entry.1)
    else (acc.1.insert entry.1 entry.2, acc.2.erase entry.1)
  else acc

def scan (m : Memtable) (prefixKey : Key) (acc : Results × DeletedKeys) : Results × DeletedKeys :=
  m.data.foldl (scanEntry prefixKey) acc

@[simp] theorem new_data : new.data = [] := rfl

@[simp] theorem add_data (m : Memtable) (key : Key) (value : Value) :
    (m.add key value).data = m.data ++ [(key, value)] := rfl

theorem get_eq_lastValue (m : Memtable) (key : Key) : m.get key = lastValue m.data key := rfl

theorem empty_iff (m : Memtable) : m.empty = true ↔ m.data = [] := List.isEmpty_iff

end Memtable

/-- What a scan has recorded about a key: a value, a deletion, or nothing. -/
def recorded (acc : Results × DeletedKeys) (key : Key) : Option Value :=
  if key ∈ acc.2 then some MEMTABLE_TOMBSTONE else acc.1[key]?

/-- A scan never holds a key both as a result and as deleted, nor a tombstone as a result. -/
def Consistent (acc : Results × DeletedKeys) : Prop :=
  ∀ key value, acc.1[key]? = some value → key ∉ acc.2 ∧ value ≠ MEMTABLE_TOMBSTONE

theorem consistent_empty : Consistent (∅, ∅) := by
  intro key value found
  simp at found

theorem Consistent.recorded_eq_some_iff {acc : Results × DeletedKeys} (consistent : Consistent acc)
    {key : Key} {value : Value} (live : value ≠ MEMTABLE_TOMBSTONE) :
    recorded acc key = some value ↔ acc.1[key]? = some value := by
  unfold recorded
  split
  next deleted =>
    simp only [Option.some.injEq, live.symm, false_iff]
    exact fun found => (consistent key value found).1 deleted
  next => rfl

namespace Memtable

theorem scanEntry_consistent {prefixKey : Key} {acc : Results × DeletedKeys} (consistent : Consistent acc)
    (entry : Key × Value) : Consistent (scanEntry prefixKey acc entry) := by
  unfold scanEntry
  split
  · split
    · intro key value found
      rw [OrderedMap.getElem?_erase] at found
      split at found
      next => cases found
      next other =>
        rw [OrderedMap.mem_insert, not_or]
        exact ⟨⟨other, (consistent key value found).1⟩, (consistent key value found).2⟩
    next live =>
      intro key value found
      rw [OrderedMap.getElem?_insert] at found
      rw [OrderedMap.mem_erase, not_and]
      split at found
      next same =>
        cases Option.some.inj found
        exact ⟨fun other => absurd same other, live⟩
      next => exact ⟨fun _ => (consistent key value found).1, (consistent key value found).2⟩
  · exact consistent

theorem recorded_scanEntry {prefixKey : Key} (acc : Results × DeletedKeys) (entry : Key × Value) (key : Key) :
    recorded (scanEntry prefixKey acc entry) key =
      if prefixKey <+: key ∧ key = entry.1 then some entry.2 else recorded acc key := by
  unfold scanEntry recorded
  by_cases here : key = entry.1
  · subst here
    by_cases starts : prefixKey <+: entry.1
    · by_cases dead : entry.2 = MEMTABLE_TOMBSTONE
      · simp [starts, dead]
      · simp [starts, dead]
    · simp [starts]
  · have there : entry.1 ≠ key := fun same => here same.symm
    by_cases starts : prefixKey <+: entry.1
    · by_cases dead : entry.2 = MEMTABLE_TOMBSTONE
      · simp [starts, dead, here, there, OrderedMap.getElem?_erase]
      · simp [starts, dead, here, there, OrderedMap.getElem?_insert]
    · simp [starts, here]

/-- A scan overwrites: the last entry of the table under a key with the
prefix replaces whatever was recorded of this key before. -/
theorem scan_spec (m : Memtable) (prefixKey : Key) {acc : Results × DeletedKeys} (consistent : Consistent acc) :
    Consistent (m.scan prefixKey acc) ∧ ∀ key, recorded (m.scan prefixKey acc) key =
      if prefixKey <+: key then (m.get key).or (recorded acc key) else recorded acc key := by
  simp only [get_eq_lastValue]
  unfold scan
  induction m.data using List.reverseRecOn with
  | nil => exact ⟨consistent, fun key => by simp⟩
  | append_singleton data entry ih =>
    obtain ⟨consistent', before⟩ := ih
    rw [List.foldl_append, List.foldl_cons, List.foldl_nil]
    refine ⟨scanEntry_consistent consistent' entry, fun key => ?_⟩
    rw [recorded_scanEntry, before, lastValue_concat]
    by_cases starts : prefixKey <+: key
    · by_cases here : key = entry.1
      · subst here
        simp [starts]
      · simp [starts, here]
    · simp [starts]

end Memtable

end LSMIO
