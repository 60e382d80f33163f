import LSMIO.NewestFile

namespace LSMIO

/-- What a record keeps of an entry: as many bytes as the sizes narrowed to 32 bits say. -/
def narrow (entry : Key × Value) : Key × Value :=
  (entry.1.take (entry.1.length % 2 ^ 32), entry.2.take (entry.2.length % 2 ^ 32))

theorem length_narrowed (text : Bytes) : (text.take (text.length % 2 ^ 32)).length = text.length % 2 ^ 32 := by
  rw [List.length_take, Nat.min_eq_left (Nat.mod_le ..)]

theorem short_narrow (entry : Key × Value) : Short (narrow entry) := by
  refine ⟨?_, ?_⟩
  · exact (length_narrowed entry.1).trans_lt (Nat.mod_lt _ (by decide))
  · exact (length_narrowed entry.2).trans_lt (Nat.mod_lt _ (by decide))

/-- The record of an entry is that of what it keeps of it. -/
theorem encodeRecord_narrow (entry : Key × Value) :
    encodeRecord (narrow entry).1 (narrow entry).2 = encodeRecord entry.1 entry.2 := by
  simp only [encodeRecord, narrow, length_narrowed, Nat.mod_mod, List.take_take, min_self]

theorem encodeRecords_narrow (data : List (Key × Value)) : encodeRecords (data.map narrow) = encodeRecords data := by
  simp only [encodeRecords, List.flatMap_map, encodeRecord_narrow]

theorem offsetsFrom_narrow {data : List (Key × Value)} (short : ∀ entry ∈ data, entry.1.length < 2 ^ 32) (start : Nat) :
    offsetsFrom start (data.map narrow) = offsetsFrom start data := by
  induction data generalizing start with
  | nil => rfl
  | cons entry data ih =>
    have whole : (narrow entry).1 = entry.1 := by
      rw [narrow, Nat.mod_eq_of_lt (short entry (List.mem_cons_self ..)), List.take_length]
    have length := congrArg List.length (encodeRecord_narrow entry)
    rw [List.map_cons, offsetsFrom, length, whole, ih fun other member => short other (List.mem_cons_of_mem _ member)]
    rfl

section

variable {data : List (Key × Value)} (short : ∀ key value, lastValue data key = some value → Short (key, value))

include short in
theorem short_keys : ∀ entry ∈ data, entry.1.length < 2 ^ 32 := by
  rintro ⟨key, value⟩ member
  obtain ⟨last, found⟩ := Option.ne_none_iff_exists'.mp (lastValue_ne_none member)
  exact (short key last found).1

include short in
/-- Where every key and its last value fit, the records keep both. -/
theorem lastValue_narrow (key : Key) : lastValue (data.map narrow) key = lastValue data key := by
  have keys : data.map narrow = data.map fun entry => (entry.1, entry.2.take (entry.2.length % 2 ^ 32)) := by
    refine List.map_congr_left fun entry member => ?_
    rw [narrow, Nat.mod_eq_of_lt (short_keys short entry member), List.take_length]
  rw [keys, lastValue_map fun value : Value => value.take (value.length % 2 ^ 32)]
  cases found : lastValue data key with
  | none => rfl
  | some value => rw [Option.map_some, Nat.mod_eq_of_lt (short key value found).2, List.take_length]

end

/-- Every key of a memtable reads back with its whole value, from the tables as they are and after a recovery. -/
structure ReadsBack (data : List (Key × Value)) (s : State) : Prop where
  before : ∀ key value, lastValue data key = some value → s.sstableGet key = some value
  after : ∀ listed : List (FileName × Bytes), listed.Perm s.dir.toList → ∀ key value, lastValue data key = some value →
    SSTableManager.get (readValueAt s.dir) (recoverState listed).1 key = some value

namespace State

variable {cfg : Config} {dir : Directory} {listed : List (FileName × Bytes)} {s w s' : State} {size id : Nat}
  {data : List (Key × Value)} {m : Memtable} {trace later : List Event}

/-- The file of the entries, seen as the file of what the records keep of them. -/
theorem Newest.narrowed (newest : Newest size id data s) :
    s.dir[fileName id]? = some (PaddedFile.flushed size id (data.map narrow)).content := by
  rw [newest.file, PaddedFile.content_flushed, PaddedFile.content_flushed, encodeRecords_narrow]

theorem short_narrowed (data : List (Key × Value)) : ∀ entry ∈ data.map narrow, Short entry := by
  intro entry member
  obtain ⟨source, -, rfl⟩ := List.mem_map.mp member
  exact short_narrow source

theorem Newest.sstableGet_eq (newest : Newest size id data s) {older : List L0Index}
    (head : s.head = tableOf (fileName id) data :: older)
    (short : ∀ key value, lastValue data key = some value → Short (key, value)) {key : Key} {value : Value}
    (last : lastValue data key = some value) : s.sstableGet key = some value := by
  have same : tableOf (fileName id) data = tableOf (fileName id) (data.map narrow) := by
    rw [tableOf, tableOf, offsetsFrom_narrow (short_keys short)]
  have file : s.dir[fileName id]? = some (encodeRecords (data.map narrow) ++
      List.replicate (size - (encodeRecords (data.map narrow)).length) 0) := newest.narrowed
  rw [sstableGet, head, same, SSTableManager.get_cons, lookup_tableOf file (short_narrowed data),
    lastValue_narrow short, last, Option.some_or]

/-- After a recovery the zeros of the own file and of those behind it stand against the empty key alone. -/
theorem Newest.get_recovered_iff (newest : Newest size id data s) (listing : listed.Perm s.dir.toList)
    (short : ∀ key value, lastValue data key = some value → Short (key, value)) {key : Key} {value : Value}
    (last : lastValue data key = some value) :
    SSTableManager.get (readValueAt s.dir) (recoverState listed).1 key = some value ↔
      (key = [] → value = [] ∨ size - (encodeRecords data).length < 8 ∧ (size < 8 ∨ ¬ s.HasBehind id)) := by
  obtain ⟨newer, older, head, stored, behind⟩ := newest.recovered listing
  have content : (PaddedFile.flushed size id data).content = (PaddedFile.flushed size id (data.map narrow)).content :=
    Option.some.inj (newest.file.symm.trans newest.narrowed)
  have padding : (PaddedFile.flushed size id (data.map narrow)).padding = size - (encodeRecords data).length := by
    rw [PaddedFile.flushed, encodeRecords_narrow]
  have own := PaddedFile.lookup_recoverIndex (f := .flushed size id (data.map narrow))
    (short_narrowed data) newest.narrowed key
  rw [PaddedFile.flushed_data, lastValue_narrow short, last, padding] at own
  have none : ¬ s.HasBehind id ↔ newer = [] := behind.symm
  rw [head, get_zeros stored, content, SSTableManager.get_cons, own, none]
  -- The answer comes from the zeros behind, from the own zeros, or from the last record of the key.
  split
  next => grind
  next =>
    rw [Option.or_eq_some_iff]
    split <;> grind

/-- An entry put into an idle store is flushed alone. -/
theorem flush_of_put {pool : FilePool} (idle : s.hand = .idle) (thread : s.pcs 0 = .idle)
    (running : s.closer = .running) (blank : s.active.data = []) (queue : s.immutables = [])
    (alive : s.flusherExited = false) (front : s.pool.acquire = some (id, pool)) (key : Key) (value : Value) :
    ∃ m s', Run (Allowed (step cfg) fun _ _ => True) s
      [.call 0 (.put key value false), .ret 0 (.put key value false) (.bool true),
      .call 0 .writeBarrier, .pushed 0, .flush .pop, .flush (.acquire true)] s' ∧ s'.hand = .acquired m id ∧
      m.data = [(key, value)] := by
  have size : s.active.sizeBytes = 0 := by rw [s.active.sizeBytes_eq, blank]; rfl
  refine ⟨s.active.add key value, { s with
      pool := pool
      active := Memtable.new
      immutables := []
      hand := .acquired (s.active.add key value) id
      flushInProgress := true
      pcs := Function.update s.pcs 0 .waiting }, Run.of_foldlM ?_, rfl, by simp [Memtable.add, blank]⟩
  simp [guarded, step, stepRet, setPc, thread, running, live, Call.mutation, batchMutation, needsRotation, size,
    addActive, Memtable.empty, Memtable.add, rotate, stepFlush, idle, queue, alive, front]

/-- A run of a store opened on an empty directory that flushes one entry. -/
theorem exists_flush (key : Key) (value : Value) :
    ∃ (trace later : List Event) (s w s' : State) (m : Memtable) (id : Nat),
    Run (Allowed (step ⟨100, 4, 1, 0⟩) fun _ _ => True) (openStore ⟨100, 4, 1, 0⟩ ∅ []) trace s ∧
      s.hand = .acquired m id ∧
      m.data = [(key, value)] ∧ step ⟨100, 4, 1, 0⟩ s (.flush (.write none)) = some w ∧
      Run (Allowed (step ⟨100, 4, 1, 0⟩) fun _ e => ∀ fault, e ≠ .flush (.write fault)) w later s' ∧
        .flush .publish ∈ later := by
  obtain ⟨first, opening, idle, thread, running, blank, queue, alive, ready⟩ : ∃ s,
      Run (Allowed (step ⟨100, 4, 1, 0⟩) fun _ _ => True) (openStore ⟨100, 4, 1, 0⟩ ∅ [])
        [.pool .check, .pool (.create true true), .pool .insert] s ∧
      s.hand.isIdle = true ∧ s.pcs 0 = .idle ∧ s.closer = .running ∧ s.active.data = [] ∧ s.immutables.isEmpty = true ∧
        s.flusherExited = false ∧ s.pool.acquire.isSome = true := Run.exists_of_any (by decide +kernel)
  obtain ⟨⟨id, pool⟩, front⟩ := Option.isSome_iff_exists.mp ready
  obtain ⟨m, s, put, acquired, data⟩ :=
    flush_of_put (Hand.eq_idle idle) thread running blank (List.isEmpty_iff.mp queue) alive
    front key value
  obtain ⟨w, written, index, hand⟩ : ∃ w, step ⟨100, 4, 1, 0⟩ s (.flush (.write none)) = some w ∧
      ∃ index, w.hand = .written m id index := by simp [step, stepFlush, acquired]
  have publish : step ⟨100, 4, 1, 0⟩ w (.flush .publish) = some
    { w with head := index :: w.head, hand := .finished } := by
    simp [step, stepFlush, hand]
  exact ⟨_, _, s, w, _, m, id, opening.append put, acquired, data, written, .step .start ⟨by simp, publish⟩, by simp⟩

/-- The entries of a memtable read back in full after its flush exactly when every key in it and its last value are
shorter than 2 ^ 32 bytes, and no zeros read as a record stand against a value of the empty key. Neither the puts
that landed nor the flush has reported a failure. -/
theorem readsBack_iff (left : LeftBehind dir) (listing : listed.Perm dir.toList)
    (run : Run (Allowed (step cfg) fun _ _ => True) (openStore cfg dir listed) trace s)
    (acquired : s.hand = .acquired m id) (written : step cfg s (.flush (.write none)) = some w)
    (rest : Run (Allowed (step cfg) fun _ e => ∀ fault, e ≠ .flush (.write fault)) w later s')
    (published : .flush .publish ∈ later) :
    ReadsBack m.data s' ↔ (∀ key value, lastValue m.data key = some value → Short (key, value)) ∧
      ∀ value, lastValue m.data [] = some value → value = [] ∨
        cfg.preAllocBytes - (encodeRecords m.data).length < 8 ∧ (cfg.preAllocBytes < 8 ∨ ¬ s'.HasBehind id) := by
  have blanks := Blanks.of_run listing left.room run
  obtain ⟨newest, atHead⟩ := (Newest.wrote blanks acquired written).of_run rest
  obtain ⟨older, head⟩ := atHead published
  constructor
  · intro back
    have short : ∀ key value, lastValue m.data key = some value → Short (key, value) := fun key value last =>
      SSTableManager.get_short (back.before key value last)
    exact ⟨short, fun value last =>
      (newest.get_recovered_iff (.refl _) short last).mp (back.after _ (.refl _) [] value last) rfl⟩
  · rintro ⟨short, blank⟩
    refine ⟨fun key value last => newest.sstableGet_eq head short last, fun listed listing key value last => ?_⟩
    refine (newest.get_recovered_iff listing short last).mpr fun empty => ?_
    exact blank value (empty ▸ last)

/-- An entry of two bytes reads back. -/
theorem readsBack_short : ∃ s : State, ReadsBack [([1], [7])] s := by
  obtain ⟨trace, later, s, w, s', m, id, run, acquired, data, written, rest, published⟩ := exists_flush [1] [7]
  have back := readsBack_iff .empty (.refl _) run acquired written rest published
  rw [data] at back
  refine ⟨s', back.mpr ⟨fun key value last => ?_, fun value last => .inr ⟨by decide, .inl (by decide)⟩⟩⟩
  obtain ⟨rfl, rfl⟩ : key = [1] ∧ value = [7] := by simpa using mem_of_lastValue last
  decide

/-- A value of 2 ^ 32 bytes does not come back, although its put and its flush succeed. -/
theorem not_readsBack : ¬ ∀ (cfg : Config) (dir : Directory) (listed : List (FileName × Bytes))
    (trace later : List Event) (s w s' : State) (m : Memtable) (id : Nat), LeftBehind dir → listed.Perm dir.toList →
      Run (Allowed (step cfg) fun _ _ => True) (openStore cfg dir listed) trace s → s.hand = .acquired m id →
      step cfg s (.flush (.write none)) = some w →
      Run (Allowed (step cfg) fun _ e => ∀ fault, e ≠ .flush (.write fault)) w later s' → .flush .publish ∈ later →
      ReadsBack m.data s' := by
  intro always
  obtain ⟨value, long⟩ : ∃ value : Value, value.length = 2 ^ 32 := ⟨List.replicate (2 ^ 32) 0, List.length_replicate⟩
  obtain ⟨trace, later, s, w, s', m, id, run, acquired, data, written, rest, published⟩ := exists_flush [1] value
  have back := always _ _ _ _ _ _ _ _ _ _ .empty (.refl _) run acquired written rest published
  have last : lastValue m.data [1] = some value := by simp [data, lastValue]
  have short := SSTableManager.get_short (back.before [1] value last)
  exact absurd short.2 (by simp only [long, lt_irrefl, not_false_eq_true])

end State

end LSMIO
