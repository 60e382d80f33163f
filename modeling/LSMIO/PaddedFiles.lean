import LSMIO.RecordLoop
import LSMIO.StoreInvariant

namespace LSMIO

/-- A file of the pool: the entries flushed to it, none for an unused file,
and the number of zero bytes that preallocation has left behind their records. -/
structure PaddedFile where
  id : Nat
  data : List (Key × Value)
  padding : Nat
  deriving DecidableEq

namespace PaddedFile

def content (f : PaddedFile) : Bytes := encodeRecords f.data ++ List.replicate f.padding 0

/-- What a file preallocated with a number of bytes is after the entries have been flushed to it. -/
def flushed (preAllocationSize id : Nat) (data : List (Key × Value)) : PaddedFile :=
  ⟨id, data, preAllocationSize - (encodeRecords data).length⟩

/-- The entries recovery finds: each eight bytes of padding read as a record with an empty key and an empty value. -/
def recovered (f : PaddedFile) : List (Key × Value) := f.data ++ List.replicate (f.padding / 8) ([], [])

theorem short_empty : Short ([], []) := by decide

theorem content_eq (f : PaddedFile) : f.content = encodeRecords f.recovered ++ List.replicate (f.padding % 8) 0 := by
  have records : ∀ n : Nat, encodeRecords (List.replicate n ([], [])) = List.replicate (8 * n) 0 := by
    intro n
    induction n with
    | zero => rfl
    | succ n ih =>
      have one : encodeRecord [] [] = List.replicate 8 0 := by decide
      rw [List.replicate_succ, encodeRecords_cons, ih, one, List.replicate_append_replicate, Nat.mul_succ, Nat.add_comm]
  rw [content, recovered, encodeRecords_append, records, List.append_assoc, List.replicate_append_replicate,
    Nat.div_add_mod]

theorem short_recovered {f : PaddedFile} (short : ∀ entry ∈ f.data, Short entry) :
    ∀ entry ∈ f.recovered, Short entry := by
  intro entry member
  rcases List.mem_append.mp member with written | blank
  · exact short entry written
  · rw [List.eq_of_mem_replicate blank]
    exact short_empty

/-- Fewer than eight zero bytes are no record: one of the lengths is cut. -/
theorem tornAs_padding (f : PaddedFile) : TornAs (List.replicate (f.padding % 8) 0) none := by
  refine ⟨[], List.replicate 4 0, f.padding % 8, by simp, ?_, ?_⟩
  · simp only [List.length_nil]
    omega
  · have zeros : Bytes.ofU32 ([] : Key).length ++ List.replicate 4 0 = List.replicate 8 0 := by decide
    rw [zeros, List.take_replicate]
    congr 1
    omega

/-- The index recovery builds from the file. -/
theorem recoverIndex_content {f : PaddedFile} (short : ∀ entry ∈ f.data, Short entry) (path : FileName) :
    recoverIndex path f.content = tableOf path f.recovered := by
  rw [content_eq, recoverIndex, recordLoop_torn_file (short_recovered short) f.tornAs_padding, tableOf]
  simp

theorem lastValue_recovered (f : PaddedFile) (key : Key) :
    lastValue f.recovered key = if 8 ≤ f.padding ∧ key = [] then some [] else lastValue f.data key := by
  have blank : ∀ n : Nat, lastValue (List.replicate n (([], []) : Key × Value)) key =
      if 0 < n ∧ key = [] then some [] else none := by
    intro n
    induction n with
    | zero => simp
    | succ n ih =>
      rw [List.replicate_succ', lastValue_concat, ih]
      by_cases empty : key = [] <;> simp [empty]
  rw [recovered, lastValue_append, blank]
  have many : 0 < f.padding / 8 ↔ 8 ≤ f.padding := by omega
  simp only [many]
  split <;> rfl

/-- What the index recovery builds from the file answers. -/
theorem lookup_recoverIndex {f : PaddedFile} (short : ∀ entry ∈ f.data, Short entry) {dir : Directory} {path : FileName}
    (file : dir[path]? = some f.content) (key : Key) :
    SSTableManager.lookup (readValueAt dir) (recoverIndex path f.content) key =
      if 8 ≤ f.padding ∧ key = [] then some [] else lastValue f.data key := by
  rw [recoverIndex_content short, ← lastValue_recovered]
  rw [content_eq] at file
  exact lookup_tableOf file (short_recovered short) key

@[simp] theorem flushed_id (preAllocationSize id : Nat) (data : List (Key × Value)) :
    (flushed preAllocationSize id data).id = id := rfl

@[simp] theorem flushed_data (preAllocationSize id : Nat) (data : List (Key × Value)) :
    (flushed preAllocationSize id data).data = data := rfl

@[simp] theorem content_unused (preAllocationSize id : Nat) :
    (flushed preAllocationSize id []).content = List.replicate preAllocationSize 0 := by
  simp [content, flushed]

/-- Writing the records over the zeros of an unused file. -/
theorem content_flushed (preAllocationSize id : Nat) (data : List (Key × Value)) :
    (flushed preAllocationSize id data).content =
      encodeRecords data ++ (List.replicate preAllocationSize 0).drop (encodeRecords data).length := by
  rw [content, List.drop_replicate]
  rfl

end PaddedFile

/-- Files of the pool, oldest first. -/
abbrev Padded := List PaddedFile

namespace Padded

def files (filed : Padded) : Files := filed.map fun f => (f.id, f.content)

/-- The entries flushed to the files. -/
def log (filed : Padded) : List (Key × Value) := (filed.map (·.data)).flatten

/-- The entries recovery finds in the files. -/
def recovered (filed : Padded) : List (Key × Value) := (filed.map PaddedFile.recovered).flatten

@[simp] theorem files_append (older newer : Padded) : files (older ++ newer) = files older ++ files newer :=
  List.map_append

@[simp] theorem log_append (older newer : Padded) : log (older ++ newer) = log older ++ log newer := by
  simp [log]

@[simp] theorem recovered_append (older newer : Padded) :
    recovered (older ++ newer) = recovered older ++ recovered newer := by
  simp [recovered]

/-- Without padding recovery finds what was flushed. -/
theorem recovered_eq_log {filed : Padded} (none : ∀ f ∈ filed, f.padding = 0) : filed.recovered = filed.log := by
  rw [recovered, log]
  refine congrArg List.flatten (List.map_congr_left fun f member => ?_)
  simp [PaddedFile.recovered, none f member]

/-- After recovery the tables answer with the last entry found in the files. -/
theorem get_recovered {filed : Padded} {dir : Directory} (stored : ∀ f ∈ filed, dir[fileName f.id]? = some f.content)
    (short : ∀ entry ∈ filed.log, Short entry) (base : List L0Index) (key : Key) :
    SSTableManager.get (readValueAt dir)
      ((filed.map fun f => recoverIndex (fileName f.id) f.content).reverse ++ base) key =
      (lastValue filed.recovered key).or (SSTableManager.get (readValueAt dir) base key) := by
  have shortFile : ∀ f ∈ filed, ∀ entry ∈ f.data, Short entry := fun f member entry inFile =>
    short entry (List.mem_flatten.mpr ⟨f.data, List.mem_map_of_mem member, inFile⟩)
  have published : (filed.map fun f => recoverIndex (fileName f.id) f.content).reverse =
      (filed.reverse.map fun f => (fileName f.id, f.recovered)).map fun table => tableOf table.1 table.2 := by
    rw [List.map_map, List.map_reverse]
    exact congrArg List.reverse (List.map_congr_left fun f member => f.recoverIndex_content (shortFile f member) _)
  have log : Tables.log (filed.reverse.map fun f => (fileName f.id, f.recovered)) = filed.recovered := by
    simp [Tables.log, recovered, ← List.map_reverse, Function.comp_def]
  have tables : Stored dir (filed.reverse.map fun f => (fileName f.id, f.recovered)) := by
    intro table member
    obtain ⟨f, inFiled, rfl⟩ := List.mem_map.mp member
    exact ⟨_, by rw [stored f (List.mem_reverse.mp inFiled), f.content_eq]⟩
  have shortTables : ∀ entry ∈ Tables.log (filed.reverse.map fun f => (fileName f.id, f.recovered)), Short entry := by
    rw [log]
    intro entry member
    obtain ⟨_, inMap, inFile⟩ := List.mem_flatten.mp member
    obtain ⟨f, inFiled, rfl⟩ := List.mem_map.mp inMap
    exact PaddedFile.short_recovered (shortFile f inFiled) entry inFile
  have found := get_tables tables shortTables base key
  rwa [← published, log] at found

/-- A directory with these files, in the order of their ids. -/
structure Holds (filed : Padded) (dir : Directory) : Prop where
  described : filed.files.Describes dir
  ascending : filed.Pairwise fun a b => a.id < b.id
  room : ∀ f ∈ filed, f.id + 1 < 2 ^ 64
  short : ∀ entry ∈ filed.log, Short entry

variable {filed : Padded} {dir : Directory} {listed : List (FileName × Bytes)}

theorem Holds.numbered (holds : filed.Holds dir) : filed.files.Numbered where
  ascending := List.pairwise_map.mpr holds.ascending
  small := by
    intro file member
    obtain ⟨f, inFiled, rfl⟩ := List.mem_map.mp member
    have room := holds.room f inFiled
    simp only
    omega

theorem Holds.stored (holds : filed.Holds dir) : ∀ f ∈ filed, dir[fileName f.id]? = some f.content := fun _ member =>
  holds.described.getElem? (List.mem_map_of_mem member)

theorem Holds.openStore_head (holds : filed.Holds dir) (listing : listed.Perm dir.toList) (cfg : Config) :
    (State.openStore cfg dir listed).head = (filed.map fun f => recoverIndex (fileName f.id) f.content).reverse := by
  have recovered := holds.numbered.recoverState_head (holds.described.listing holds.numbered listing)
  rw [files, List.map_map] at recovered
  exact recovered

/-- A store just opened shows the entries recovery finds. -/
theorem Holds.get_openStore (holds : filed.Holds dir) (listing : listed.Perm dir.toList) (cfg : Config) (key : Key) :
    (State.openStore cfg dir listed).get key = contents filed.recovered key := by
  have found := get_recovered holds.stored holds.short [] key
  rw [List.append_nil, ← holds.openStore_head listing cfg] at found
  rw [State.get, State.memtableGet_eq, State.sstableGet, show (State.openStore cfg dir listed).memData = [] from rfl,
    show (State.openStore cfg dir listed).dir = dir from rfl, found, contents]
  simp [SSTableManager.get]

end Padded

end LSMIO
