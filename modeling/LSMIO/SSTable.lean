import LSMIO.Library.PrefixOrder
import LSMIO.Record

namespace LSMIO

abbrev FileName := Bytes

/-- The files of the database directory and their bytes. -/
abbrev Directory := Std.ExtTreeMap FileName Bytes

/-- The stream of a file open for writing. -/
structure OStream where
  content : Bytes
  position : Nat
  failed : Bool

namespace OStream

/-- A failed stream tells -1, stored in an unsigned 64-bit offset. -/
def tellp (s : OStream) : Nat := if s.failed then 2 ^ 64 - 1 else s.position

/-- A write either takes all bytes, or only the first `n` reach the file and
the stream is failed from then on. -/
def write (s : OStream) (data : Bytes) (accepted : Option Nat) : OStream :=
  if s.failed then s
  else match accepted with
    | none => { s with content := s.content.writeAt s.position data, position := s.position + data.length }
    | some n =>
      { content := s.content.writeAt s.position (data.take n)
        position := s.position + (data.take n).length
        failed := true }

end OStream

/-- The record loop of `flushMemtable`. `fault` names the first record whose
write fails, counted from the current one, and how many of its bytes reach the file. -/
def writeRecords : Option (Nat × Nat) → OStream → List (Key × Value) → OStream × Index Key
  | _, s, [] => (s, [])
  | fault, s, (key, value) :: rest =>
    let current := match fault with
      | some (0, n) => some n
      | _ => none
    let later := match fault with
      | some (i + 1, n) => some (i, n)
      | _ => none
    let (s', offsets) := writeRecords later (s.write (encodeRecord key value) current) rest
    (s', (key, s.tellp) :: offsets)

/-- The index of one file: keys strictly ascending, each with one offset. -/
structure L0Index where
  path : FileName
  offsets : Index Key
  sorted : offsets.Sorted

/-- Sort by key and descending offset, then drop repeated keys. -/
def L0Index.build (path : FileName) (offsets : Index Key) : L0Index :=
  ⟨path, offsets.sortUnique, offsets.sortUnique_sorted⟩

/-- Open, seek, and decode the record there. -/
def readValueAt (dir : Directory) (path : FileName) (offset : Nat) (key : Key) : Option Value :=
  dir[path]?.bind fun content => readRecordAt content offset key

namespace SSTableManager

/-- The outcome of `readValueAt` for every file, offset and key. -/
abbrev Reader := FileName → Nat → Key → Option Value

variable (read : Reader)

/-- One table's answer: the record at the offset of the key, when it reads. -/
def lookup (index : L0Index) (key : Key) : Option Value :=
  (index.offsets.find key).bind fun offset => read index.path offset key

/-- The list from the head is searched newest to oldest; a read that fails
falls through to the next table. -/
def get : List L0Index → Key → Option Value
  | [], _ => none
  | curr :: next, key =>
    match lookup read curr key with
    | some value => some value
    | none => get next key

/-- One entry of a prefix scan: first seen wins. The flag is `found_any`. -/
def scanOffset (path : FileName) (acc : (Results × DeletedKeys) × Bool) (entry : Key × Nat) :
    (Results × DeletedKeys) × Bool :=
  if acc.1.1[entry.1]? = none ∧ entry.1 ∉ acc.1.2 then
    match read path entry.2 entry.1 with
    | some value =>
      if value = MEMTABLE_TOMBSTONE then ((acc.1.1, acc.1.2.insert entry.1), acc.2)
      else ((acc.1.1.insert entry.1 value, acc.1.2), true)
    | none => acc
  else acc

/-- From the lower bound of the prefix up to the first key without it. -/
def scanTable (prefixKey : Key) (acc : (Results × DeletedKeys) × Bool) (index : L0Index) :
    (Results × DeletedKeys) × Bool :=
  ((index.offsets.lowerBound prefixKey).takeWhile fun entry => prefixKey.isPrefixOf entry.1).foldl
    (scanOffset read index.path) acc

def scan (head : List L0Index) (prefixKey : Key) (acc : Results × DeletedKeys) : (Results × DeletedKeys) × Bool :=
  head.foldl (scanTable read prefixKey) (acc, false)

theorem get_cons (curr : L0Index) (next : List L0Index) (key : Key) :
    get read (curr :: next) key = (lookup read curr key).or (get read next key) := by
  rw [get]
  cases lookup read curr key <;> rfl

theorem get_short {dir : Directory} {head : List L0Index} {key : Key} {value : Value}
    (found : get (readValueAt dir) head key = some value) : Short (key, value) := by
  induction head with
  | nil => cases found
  | cons curr head ih =>
    rw [get_cons, Option.or_eq_some_iff] at found
    rcases found with here | ⟨-, behind⟩
    · obtain ⟨offset, -, read⟩ := Option.bind_eq_some_iff.mp here
      obtain ⟨content, -, decoded⟩ := Option.bind_eq_some_iff.mp read
      exact readRecordAt_short decoded
    · exact ih behind

end SSTableManager

/-- What a scan shows of a key: its result, and whether it counts as deleted. -/
def shown (acc : Results × DeletedKeys) (key : Key) : Option Value × Bool := (acc.1[key]?, decide (key ∈ acc.2))

/-- How an answer of the tables shows: a tombstone as a deletion, any other value as a result. -/
def shownAs : Option Value → Option Value × Bool
  | none => (none, false)
  | some value => if value = MEMTABLE_TOMBSTONE then (none, true) else (some value, false)

/-- First seen wins: an answer shows only where nothing shows yet. -/
def settle (before : Option Value × Bool) (answer : Option Value) : Option Value × Bool :=
  if before = (none, false) then shownAs answer else before

@[simp] theorem settle_none (before : Option Value × Bool) : settle before none = before := by
  unfold settle
  split
  next unseen => exact unseen.symm
  next => rfl

theorem shownAs_some_ne (value : Value) : shownAs (some value) ≠ (none, false) := by
  simp only [shownAs, ne_eq]
  split <;> simp

theorem settle_settle (before : Option Value × Bool) (first second : Option Value) :
    settle (settle before first) second = settle before (first.or second) := by
  cases first with
  | none => rw [settle_none, Option.none_or]
  | some value =>
    unfold settle
    by_cases unseen : before = (none, false)
    · simp only [unseen, if_true, if_neg (shownAs_some_ne value), Option.some_or]
    · simp only [unseen, if_false]

/-- An answer taken in shows as a result only when it is no tombstone, and then not as deleted. -/
theorem settle_result {before : Option Value × Bool} {answer : Option Value} {value : Value}
    (kept : before.1 = some value → before.2 = false ∧ value ≠ MEMTABLE_TOMBSTONE)
    (result : (settle before answer).1 = some value) :
    (settle before answer).2 = false ∧ value ≠ MEMTABLE_TOMBSTONE := by
  unfold settle at result ⊢
  split at result
  next unseen =>
    rw [if_pos unseen]
    cases answer with
    | none => cases result
    | some stored =>
      by_cases dead : stored = MEMTABLE_TOMBSTONE
      · simp [shownAs, dead] at result
      · simp only [shownAs, if_neg dead, Option.some.injEq] at result ⊢
        exact ⟨trivial, result ▸ dead⟩
  next seen =>
    rw [if_neg seen]
    exact kept result

theorem recorded_eq_shown (acc : Results × DeletedKeys) (key : Key) :
    recorded acc key = if (shown acc key).2 = true then some MEMTABLE_TOMBSTONE else (shown acc key).1 := by
  simp [recorded, shown]

namespace SSTableManager

variable (read : Reader)

theorem shown_scanOffset (path : FileName) (acc : (Results × DeletedKeys) × Bool) (entry : Key × Nat) (key : Key) :
    shown (scanOffset read path acc entry).1 key =
      settle (shown acc.1 key) (if entry.1 = key then read path entry.2 key else none) := by
  by_cases here : entry.1 = key
  · subst here
    rw [if_pos rfl]
    unfold scanOffset
    split
    next unseen =>
      have nothing : shown acc.1 entry.1 = (none, false) := by simp [shown, unseen.1, unseen.2]
      rw [nothing]
      cases found : read path entry.2 entry.1 with
      | none => simp [nothing]
      | some value =>
        by_cases dead : value = MEMTABLE_TOMBSTONE
        · simp [dead, shown, settle, shownAs, unseen.1]
        · simp [dead, shown, settle, shownAs, unseen.2]
    next seen =>
      have something : shown acc.1 entry.1 ≠ (none, false) := by simpa [shown] using seen
      rw [settle, if_neg something]
  · rw [if_neg here, settle_none]
    unfold scanOffset
    split
    next =>
      cases read path entry.2 entry.1 with
      | none => rfl
      | some value =>
        by_cases dead : value = MEMTABLE_TOMBSTONE
        · simp [dead, shown, here]
        · simp [dead, shown, OrderedMap.getElem?_insert, here]
    next => rfl

theorem shown_scanOffsets (path : FileName) (entries : Index Key) (acc : (Results × DeletedKeys) × Bool) (key : Key) :
    shown (entries.foldl (scanOffset read path) acc).1 key = settle (shown acc.1 key)
      (entries.findSome? fun entry => if entry.1 = key then read path entry.2 key else none) := by
  induction entries generalizing acc with
  | nil => simp
  | cons entry entries ih =>
    rw [List.foldl_cons, ih, shown_scanOffset, settle_settle, List.findSome?_cons]
    cases (if entry.1 = key then read path entry.2 key else none) <;> rfl

/-- The scan that stops at the first key without the prefix meets all keys with it. -/
theorem mem_prefixRange {index : Index Key} (sorted : index.Sorted) {prefixKey : Key} {entry : Key × Nat} :
    (entry ∈ (index.lowerBound prefixKey).takeWhile fun entry => prefixKey.isPrefixOf entry.1) ↔
      entry ∈ index ∧ prefixKey <+: entry.1 :=
  List.mem_prefixRange sorted

theorem findSome?_prefixRange (index : L0Index) {prefixKey key : Key} (starts : prefixKey <+: key) :
    (((index.offsets.lowerBound prefixKey).takeWhile fun entry => prefixKey.isPrefixOf entry.1).findSome?
      fun entry => if entry.1 = key then read index.path entry.2 key else none) = lookup read index key := by
  unfold lookup
  cases atKey : index.offsets.find key with
  | none =>
    rw [Option.bind_none, List.findSome?_eq_none_iff]
    intro entry member
    rw [if_neg]
    rintro rfl
    have inIndex := index.sorted.find_eq_some_iff.mpr ((mem_prefixRange index.sorted).mp member).1
    rw [atKey] at inIndex
    cases inIndex
  | some offset =>
    have inIndex := index.sorted.find_eq_some_iff.mp atKey
    have member := (mem_prefixRange index.sorted).mpr ⟨inIndex, starts⟩
    have unique : ∀ entry ∈ (index.offsets.lowerBound prefixKey).takeWhile fun entry => prefixKey.isPrefixOf entry.1,
        (if entry.1 = key then read index.path entry.2 key else none) =
          if entry.1 = key then read index.path offset key else none := by
      intro entry member'
      split
      next here =>
        have other := index.sorted.find_eq_some_iff.mpr ((mem_prefixRange index.sorted).mp member').1
        rw [here, atKey] at other
        rw [Option.some.inj other]
      next => rfl
    rw [Option.bind_some]
    cases value : read index.path offset key with
    | none =>
      rw [List.findSome?_eq_none_iff]
      intro entry member'
      rw [unique entry member', value, ite_self]
    | some found =>
      have answers : (((index.offsets.lowerBound prefixKey).takeWhile fun entry =>
        prefixKey.isPrefixOf entry.1).findSome?
          fun entry => if entry.1 = key then read index.path entry.2 key else none).isSome := by
        rw [List.findSome?_isSome_iff]
        exact ⟨_, member, by simp [value]⟩
      obtain ⟨result, scanned⟩ := Option.isSome_iff_exists.mp answers
      obtain ⟨entry, member', hit⟩ := List.exists_of_findSome?_eq_some scanned
      rw [unique entry member', value] at hit
      rw [scanned]
      split at hit
      next => exact hit.symm
      next => cases hit

/-- A table's scan shows each key with the prefix that is not yet seen as the table's own answer. -/
theorem shown_scanTable (prefixKey : Key) (acc : (Results × DeletedKeys) × Bool) (index : L0Index) (key : Key) :
    shown (scanTable read prefixKey acc index).1 key =
      if prefixKey <+: key then settle (shown acc.1 key) (lookup read index key) else shown acc.1 key := by
  rw [scanTable, shown_scanOffsets]
  split
  next starts => rw [findSome?_prefixRange read index starts]
  next starts =>
    have missed : (((index.offsets.lowerBound prefixKey).takeWhile fun entry => prefixKey.isPrefixOf entry.1).findSome?
        fun entry => if entry.1 = key then read index.path entry.2 key else none) = none := by
      rw [List.findSome?_eq_none_iff]
      intro entry member
      rw [if_neg]
      rintro rfl
      exact starts ((mem_prefixRange index.sorted).mp member).2
    rw [missed, settle_none]

/-- Tables are scanned newest first and the first one that answers for a key wins, as in `get`. -/
theorem shown_scan (head : List L0Index) (prefixKey : Key) (acc : Results × DeletedKeys) (key : Key) :
    shown (scan read head prefixKey acc).1 key =
      if prefixKey <+: key then settle (shown acc key) (get read head key) else shown acc key := by
  have tables : ∀ state : (Results × DeletedKeys) × Bool, shown (head.foldl (scanTable read prefixKey) state).1 key =
      if prefixKey <+: key then settle (shown state.1 key) (get read head key) else shown state.1 key := by
    induction head with
    | nil => simp [get]
    | cons index head ih =>
      intro state
      rw [List.foldl_cons, ih, shown_scanTable, get_cons]
      split
      · rw [settle_settle]
      · rfl
  exact tables (acc, false)

/-- What a scan records of the keys with the prefix, on top of consistent accumulators. -/
theorem scan_spec (prefixKey : Key) {acc : Results × DeletedKeys} (consistent : Consistent acc)
    (head : List L0Index) : Consistent (scan read head prefixKey acc).1 ∧
      ∀ key, recorded (scan read head prefixKey acc).1 key =
        if prefixKey <+: key then (recorded acc key).or (get read head key) else recorded acc key := by
  refine ⟨fun key value found => ?_, fun key => ?_⟩
  · have kept : (shown acc key).1 = some value → (shown acc key).2 = false ∧ value ≠ MEMTABLE_TOMBSTONE := fun here =>
      ⟨by simpa [shown] using (consistent key value here).1, (consistent key value here).2⟩
    have result : (shown (scan read head prefixKey acc).1 key).1 = some value := found
    have live : (shown (scan read head prefixKey acc).1 key).2 = false ∧ value ≠ MEMTABLE_TOMBSTONE := by
      rw [shown_scan] at result ⊢
      split at result
      next starts =>
        rw [if_pos starts]
        exact settle_result kept result
      next other =>
        rw [if_neg other]
        exact kept result
    exact ⟨by simpa [shown] using live.1, live.2⟩
  · rw [recorded_eq_shown, recorded_eq_shown, shown_scan]
    split
    next =>
      unfold settle
      by_cases unseen : shown acc key = (none, false)
      · rw [if_pos unseen, unseen]
        cases get read head key with
        | none => rfl
        | some stored =>
          by_cases dead : stored = MEMTABLE_TOMBSTONE <;> simp [shownAs, dead]
      · rw [if_neg unseen]
        cases deleted : (shown acc key).2 with
        | true => rfl
        | false =>
          cases result : (shown acc key).1 with
          | none => exact absurd (Prod.ext result deleted) unseen
          | some value => simp
    next => rfl

end SSTableManager

end LSMIO
