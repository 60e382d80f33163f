import LSMIO.SSTable

namespace LSMIO

/-- The stream `acquire` hands out: open at the start of a file that may hold preallocated bytes. -/
def OStream.opened (content : Bytes) : OStream := ⟨content, 0, false⟩

/-- With no failing write the record loop leaves the records in front of what
remains of the old content, and logs the offset at which each one starts. -/
theorem writeRecords_intact (written rest : Bytes) (data : List (Key × Value)) :
    writeRecords none ⟨written ++ rest, written.length, false⟩ data =
      (⟨written ++ encodeRecords data ++ rest.drop (encodeRecords data).length,
        (written ++ encodeRecords data).length, false⟩, offsetsFrom written.length data) := by
  induction data generalizing written rest with
  | nil => simp [writeRecords, offsetsFrom]
  | cons entry data ih =>
    obtain ⟨key, value⟩ := entry
    have step : OStream.write ⟨written ++ rest, written.length, false⟩ (encodeRecord key value) none =
        ⟨written ++ encodeRecord key value ++ rest.drop (encodeRecord key value).length,
          (written ++ encodeRecord key value).length, false⟩ := by
      simp [OStream.write]
    simp only [writeRecords, step, ih, OStream.tellp, offsetsFrom, encodeRecords_cons]
    simp

/-- The index `flushMemtable` builds when every write goes through. -/
def tableOf (path : FileName) (data : List (Key × Value)) : L0Index := L0Index.build path (offsetsFrom 0 data)

@[simp] theorem tableOf_path (path : FileName) (data : List (Key × Value)) : (tableOf path data).path = path := rfl

/-- A table whose file holds the records of the flushed entries answers for
each key with its last entry, as the memtable did. -/
theorem lookup_tableOf {dir : Directory} {path : FileName} {data : List (Key × Value)} {padding : Bytes}
    (file : dir[path]? = some (encodeRecords data ++ padding)) (short : ∀ entry ∈ data, Short entry) (key : Key) :
    SSTableManager.lookup (readValueAt dir) (tableOf path data) key = lastValue data key := by
  have back := readRecordAt_lastOffset short [] padding key
  rw [SSTableManager.lookup, tableOf, L0Index.build, Index.find_sortUnique (offsetsFrom_ascending 0 data)]
  simpa only [readValueAt, file, Option.bind_some, List.nil_append, List.length_nil] using back

/-- Files and the entries flushed into them, newest first. -/
abbrev Tables := List (FileName × List (Key × Value))

/-- Every file holds the records of its entries, with the full lengths written. -/
def Stored (dir : Directory) (tables : Tables) : Prop :=
  ∀ table ∈ tables, (∃ padding, dir[table.1]? = some (encodeRecords table.2 ++ padding))

/-- The flushed entries of all tables, oldest first. -/
def Tables.log (tables : Tables) : List (Key × Value) := (tables.reverse.map (·.2)).flatten

@[simp] theorem Tables.log_nil : Tables.log [] = [] := rfl

@[simp] theorem Tables.log_cons (table : FileName × List (Key × Value)) (older : Tables) :
    Tables.log (table :: older) = Tables.log older ++ table.2 := by
  simp [Tables.log]

/-- Searching intact tables newest first finds the last entry among all that
were flushed into them; other keys are left to the tables behind. -/
theorem get_tables {dir : Directory} {tables : Tables} (stored : Stored dir tables)
    (short : ∀ entry ∈ tables.log, Short entry) (base : List L0Index) (key : Key) :
    SSTableManager.get (readValueAt dir) (tables.map (fun table => tableOf table.1 table.2) ++ base) key =
      (lastValue tables.log key).or (SSTableManager.get (readValueAt dir) base key) := by
  induction tables with
  | nil => rfl
  | cons table older ih =>
    obtain ⟨padding, file⟩ := stored table (List.mem_cons_self ..)
    have shortTable : ∀ entry ∈ table.2, Short entry := fun entry member => short entry (by simp [member])
    have shortOlder : ∀ entry ∈ Tables.log older, Short entry := fun entry member => short entry (by simp [member])
    rw [List.map_cons, List.cons_append, SSTableManager.get_cons, lookup_tableOf file shortTable,
      ih (fun table member => stored table (List.mem_cons_of_mem _ member)) shortOlder,
      Tables.log_cons, lastValue_append, Option.or_assoc]

end LSMIO
