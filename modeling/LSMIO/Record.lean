import LSMIO.Library.SortedIndex
import LSMIO.Memtable

namespace LSMIO

/-- The bytes of one record: both sizes are narrowed to 32 bits and say how
many bytes of the key and of the value are appended. -/
def encodeRecord (key : Key) (value : Value) : Bytes :=
  let keyLen := key.length % 2 ^ 32
  let valLen := value.length % 2 ^ 32
  Bytes.ofU32 keyLen ++ key.take keyLen ++ Bytes.ofU32 valLen ++ value.take valLen

def encodeRecords (data : List (Key × Value)) : Bytes := data.flatMap fun entry => encodeRecord entry.1 entry.2

/-- Key and value fit the 32-bit length fields of a record. -/
def Short (entry : Key × Value) : Prop := entry.1.length < 2 ^ 32 ∧ entry.2.length < 2 ^ 32

instance : DecidablePred Short := fun entry =>
  inferInstanceAs (Decidable (entry.1.length < 2 ^ 32 ∧ entry.2.length < 2 ^ 32))

/-- Decoding of the record at an offset: any short read fails, and so does a
record of another key. -/
def readRecordAt (content : Bytes) (offset : Nat) (key : Key) : Option Value := do
  let keyLen ← content.readU32At offset
  let keyFromFile ← content.readAt (offset + 4) keyLen
  if keyFromFile = key then
    let valLen ← content.readU32At (offset + 4 + keyLen)
    content.readAt (offset + 4 + keyLen + 4) valLen
  else none

/-- The offsets of consecutive records, the first at `start`. -/
def offsetsFrom (start : Nat) : List (Key × Value) → Index Key
  | [] => []
  | (key, value) :: rest => (key, start) :: offsetsFrom (start + (encodeRecord key value).length) rest

@[simp] theorem encodeRecords_nil : encodeRecords [] = [] := rfl

@[simp] theorem encodeRecords_append (older newer : List (Key × Value)) :
    encodeRecords (older ++ newer) = encodeRecords older ++ encodeRecords newer := List.flatMap_append

theorem encodeRecords_cons (entry : Key × Value) (rest : List (Key × Value)) :
    encodeRecords (entry :: rest) = encodeRecord entry.1 entry.2 ++ encodeRecords rest := rfl

theorem encodeRecord_length_ge (key : Key) (value : Value) : 8 ≤ (encodeRecord key value).length := by
  simp only [encodeRecord, List.length_append, Bytes.length_ofU32]
  omega

theorem Short.encodeRecord_eq {entry : Key × Value} (short : Short entry) :
    encodeRecord entry.1 entry.2 =
      Bytes.ofU32 entry.1.length ++ entry.1 ++ Bytes.ofU32 entry.2.length ++ entry.2 := by
  simp only [encodeRecord, Nat.mod_eq_of_lt short.1, Nat.mod_eq_of_lt short.2, List.take_length]

theorem Short.encodeRecord_length {entry : Key × Value} (short : Short entry) :
    (encodeRecord entry.1 entry.2).length = 8 + entry.1.length + entry.2.length := by
  simp only [short.encodeRecord_eq, List.length_append, Bytes.length_ofU32]
  omega

theorem offsetsFrom_append (start : Nat) (older newer : List (Key × Value)) :
    offsetsFrom start (older ++ newer) =
      offsetsFrom start older ++ offsetsFrom (start + (encodeRecords older).length) newer := by
  induction older generalizing start with
  | nil => rfl
  | cons entry older ih =>
    obtain ⟨key, value⟩ := entry
    simp only [List.cons_append, offsetsFrom, ih, encodeRecords_cons, List.length_append, Nat.add_assoc]

theorem offsetsFrom_ge {start : Nat} {data : List (Key × Value)} {entry : Key × Nat}
    (member : entry ∈ offsetsFrom start data) : start ≤ entry.2 := by
  induction data generalizing start with
  | nil => simp [offsetsFrom] at member
  | cons first data ih =>
    rcases List.mem_cons.mp member with rfl | later
    · exact le_rfl
    · exact (Nat.le_add_right _ _).trans (ih later)

/-- Offsets are assigned in ascending order, since no record is empty. -/
theorem offsetsFrom_ascending (start : Nat) (data : List (Key × Value)) :
    (offsetsFrom start data).Pairwise fun a b => a.2 < b.2 := by
  induction data generalizing start with
  | nil => exact .nil
  | cons entry data ih =>
    obtain ⟨key, value⟩ := entry
    refine List.pairwise_cons.mpr ⟨fun later member => ?_, ih _⟩
    have above := offsetsFrom_ge member
    have long := encodeRecord_length_ge key value
    simp only
    omega

/-- A whole record reads back as its value, wherever it stands. -/
theorem readRecordAt_here {entry : Key × Value} (short : Short entry) (front rest : Bytes) :
    readRecordAt (front ++ encodeRecord entry.1 entry.2 ++ rest) front.length entry.1 = some entry.2 := by
  have encoded := short.encodeRecord_eq
  obtain ⟨key, value⟩ := entry
  obtain ⟨keyShort, valueShort⟩ := short
  simp only at keyShort valueShort encoded
  have layout : front ++ encodeRecord key value ++ rest =
      front ++ Bytes.ofU32 key.length ++ key ++ Bytes.ofU32 value.length ++ value ++ rest := by
    rw [encoded]
    simp only [List.append_assoc]
  have keyLen := Bytes.readU32At_here front (key ++ Bytes.ofU32 value.length ++ value ++ rest) keyShort
  have keyBytes := Bytes.readAt_here (front ++ Bytes.ofU32 key.length) key (Bytes.ofU32 value.length ++ value ++ rest)
  have valLen := Bytes.readU32At_here (front ++ Bytes.ofU32 key.length ++ key) (value ++ rest) valueShort
  have valueBytes :=
    Bytes.readAt_here (front ++ Bytes.ofU32 key.length ++ key ++ Bytes.ofU32 value.length) value rest
  simp only [List.length_append, Bytes.length_ofU32, ← List.append_assoc] at keyLen keyBytes valLen valueBytes
  rw [layout]
  simp only [readRecordAt, keyLen, Option.bind_eq_bind, Option.bind_some, keyBytes, if_true, valLen, valueBytes]

/-- What a record reads back as never has 2 ^ 32 bytes or more, nor has its key. -/
theorem readRecordAt_short {content : Bytes} {offset : Nat} {key : Key} {value : Value}
    (read : readRecordAt content offset key = some value) : Short (key, value) := by
  unfold readRecordAt at read
  obtain ⟨keyLen, keyRead, read⟩ := Option.bind_eq_some_iff.mp read
  obtain ⟨keyFromFile, keyBytes, read⟩ := Option.bind_eq_some_iff.mp read
  split at read
  next same =>
    obtain ⟨valLen, valRead, valueBytes⟩ := Option.bind_eq_some_iff.mp read
    refine ⟨?_, ?_⟩
    · rw [← same, Bytes.length_of_readAt keyBytes]
      exact Bytes.readU32At_lt keyRead
    · rw [Bytes.length_of_readAt valueBytes]
      exact Bytes.readU32At_lt valRead
  next => cases read

/-- The last offset logged for a key is that of the last record of the key,
and a file that holds the records from there on reads back its value. -/
theorem readRecordAt_lastOffset {data : List (Key × Value)} (short : ∀ entry ∈ data, Short entry)
    (front rest : Bytes) (key : Key) :
    ((lastValue (offsetsFrom front.length data) key).bind fun offset =>
        readRecordAt (front ++ encodeRecords data ++ rest) offset key) = lastValue data key := by
  induction data using List.reverseRecOn generalizing rest with
  | nil => rfl
  | append_singleton data entry ih =>
    obtain ⟨k, value⟩ := entry
    have shortLast := short (k, value) (by simp)
    rw [offsetsFrom_append, lastValue_concat]
    simp only [offsetsFrom, encodeRecords_append]
    rw [lastValue_concat]
    by_cases here : key = k
    · subst here
      have found := readRecordAt_here shortLast (front ++ encodeRecords data) rest
      simp only [List.length_append, List.append_assoc] at found
      simpa [encodeRecords_cons] using found
    · have back := ih (fun entry member => short entry (List.mem_append_left _ member)) (encodeRecord k value ++ rest)
      simp only [List.append_assoc] at back
      simpa [encodeRecords_cons, here] using back

end LSMIO
