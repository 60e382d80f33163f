import LSMIO.Flush
import LSMIO.RecoveryFiles

namespace LSMIO

/-- Past the end of the file no record is found. -/
theorem recordLoop_end {content : Bytes} {fuel position : Nat} (past : content.length ≤ position) :
    recordLoop content fuel position = [] := by
  cases fuel with
  | zero => rfl
  | succ fuel => rw [recordLoop, if_pos past]

/-- A record whose lengths and key are present is indexed, and its value is skipped whether present or not. -/
theorem recordLoop_header {key : Key} {valLen : Nat} (keyShort : key.length < 2 ^ 32) (valueShort : valLen < 2 ^ 32)
    (front rest : Bytes) (fuel : Nat) :
    recordLoop (front ++ Bytes.ofU32 key.length ++ key ++ Bytes.ofU32 valLen ++ rest) (fuel + 1) front.length =
      (key, front.length) ::
        recordLoop (front ++ Bytes.ofU32 key.length ++ key ++ Bytes.ofU32 valLen ++ rest) fuel
          (front.length + 4 + key.length + 4 + valLen) := by
  have keyLen := Bytes.readU32At_here front (key ++ Bytes.ofU32 valLen ++ rest) keyShort
  have keyBytes := Bytes.readAt_here (front ++ Bytes.ofU32 key.length) key (Bytes.ofU32 valLen ++ rest)
  have valueLen := Bytes.readU32At_here (front ++ Bytes.ofU32 key.length ++ key) rest valueShort
  simp only [List.length_append, Bytes.length_ofU32, ← List.append_assoc] at keyLen keyBytes valueLen
  have more : ¬ (front ++ Bytes.ofU32 key.length ++ key ++ Bytes.ofU32 valLen ++ rest).length ≤ front.length := by
    simp only [List.length_append, Bytes.length_ofU32]
    omega
  rw [recordLoop, if_neg more, keyLen]
  simp only [keyBytes, valueLen]

/-- A record cut before its value begins is not indexed. -/
theorem recordLoop_torn {key : Key} (keyShort : key.length < 2 ^ 32) (front rest : Bytes) (cut fuel : Nat)
    (torn : cut < 8 + key.length) :
    recordLoop (front ++ (Bytes.ofU32 key.length ++ rest).take cut) fuel front.length = [] := by
  set content := front ++ (Bytes.ofU32 key.length ++ rest).take cut with isContent
  have length : content.length ≤ front.length + cut := by
    rw [isContent, List.length_append, List.length_take]
    omega
  cases fuel with
  | zero => rfl
  | succ fuel =>
    rw [recordLoop]
    split
    · rfl
    · cases keyRead : content.readU32At front.length with
      | none => rfl
      | some keyLen =>
        have fits : front.length + 4 ≤ content.length := by
          by_contra short
          rw [Bytes.readU32At_eq_none_iff.mpr (by omega)] at keyRead
          cases keyRead
        have whole : content = front ++ Bytes.ofU32 key.length ++ rest.take (cut - 4) := by
          have enough : (Bytes.ofU32 key.length).length ≤ cut := by
            rw [Bytes.length_ofU32]
            omega
          rw [isContent, List.take_append, List.take_of_length_le enough, Bytes.length_ofU32, List.append_assoc]
        have same : keyLen = key.length := by
          rw [whole, Bytes.readU32At_here front _ keyShort] at keyRead
          exact (Option.some.inj keyRead).symm
        subst same
        simp only
        cases content.readAt (front.length + 4) key.length with
        | none => rfl
        | some found =>
          simp only
          rw [Bytes.readU32At_eq_none_iff.mpr (by omega)]

/-- Positions only move forward: the offsets of one pass are ascending. -/
theorem recordLoop_ge {content : Bytes} {fuel position : Nat} {entry : Key × Nat}
    (member : entry ∈ recordLoop content fuel position) : position ≤ entry.2 := by
  induction fuel generalizing position with
  | zero => simp [recordLoop] at member
  | succ fuel ih =>
    rw [recordLoop] at member
    split at member
    · cases member
    · split at member
      · cases member
      · split at member
        · cases member
        · split at member
          · cases member
          · rcases List.mem_cons.mp member with rfl | later
            · exact le_rfl
            · exact le_trans (by omega) (ih later)

theorem recordLoop_ascending (content : Bytes) (fuel position : Nat) :
    (recordLoop content fuel position).Pairwise fun a b => a.2 < b.2 := by
  induction fuel generalizing position with
  | zero => exact .nil
  | succ fuel ih =>
    rw [recordLoop]
    split
    · exact .nil
    · split
      · exact .nil
      · split
        · exact .nil
        · split
          · exact .nil
          · refine List.pairwise_cons.mpr ⟨fun later member => ?_, ih _⟩
            have above := recordLoop_ge member
            simp only
            omega

/-- A recovered index answers with the record at the largest offset found for the key. -/
theorem lookup_recoverIndex (read : SSTableManager.Reader) (path : FileName) (content : Bytes) (key : Key) :
    SSTableManager.lookup read (recoverIndex path content) key =
      (lastValue (recordLoop content content.length 0) key).bind fun offset => read path offset key := by
  rw [SSTableManager.lookup, recoverIndex, L0Index.build, Index.find_sortUnique (recordLoop_ascending _ _ _)]

/-- The records wholly within the first `cut` bytes of a file, and the key of
the one after them when the cut leaves its lengths and its key but not all of its value. -/
def cutRecords : List (Key × Value) → Nat → List (Key × Value) × Option Key
  | [], _ => ([], none)
  | (key, value) :: rest, cut =>
    if 8 + key.length + value.length ≤ cut then
      let (written, torn) := cutRecords rest (cut - (8 + key.length + value.length))
      ((key, value) :: written, torn)
    else ([], if 8 + key.length ≤ cut then some key else none)

theorem cutRecords_isFront (data : List (Key × Value)) (cut : Nat) : (cutRecords data cut).1 <+: data := by
  induction data generalizing cut with
  | nil => exact List.nil_prefix
  | cons entry rest ih =>
    obtain ⟨key, value⟩ := entry
    rw [cutRecords]
    split
    · exact List.cons_prefix_cons.mpr ⟨rfl, ih _⟩
    · exact List.nil_prefix

/-- What a cut leaves of the record it falls into: with the key, all but the
whole value; without, less than the lengths and the key. -/
def TornAs (rest : Bytes) : Option Key → Prop
  | none => ∃ (key : Key) (tail : Bytes) (cut : Nat), key.length < 2 ^ 32 ∧ cut < 8 + key.length ∧
      rest = (Bytes.ofU32 key.length ++ tail).take cut
  | some key => ∃ (valLen : Nat) (part : Bytes), key.length < 2 ^ 32 ∧ valLen < 2 ^ 32 ∧ part.length < valLen ∧
      rest = Bytes.ofU32 key.length ++ key ++ Bytes.ofU32 valLen ++ part

theorem cutRecords_spec {data : List (Key × Value)} (short : ∀ entry ∈ data, Short entry) (cut : Nat) :
    ∃ rest, (encodeRecords data).take cut = encodeRecords (cutRecords data cut).1 ++ rest ∧
      TornAs rest (cutRecords data cut).2 := by
  induction data generalizing cut with
  | nil => exact ⟨[], by simp [cutRecords], [], [], 0, by simp, by simp, rfl⟩
  | cons entry data ih =>
    obtain ⟨key, value⟩ := entry
    have shortHere := short (key, value) (List.mem_cons_self ..)
    have encoded : encodeRecord key value =
        Bytes.ofU32 key.length ++ key ++ Bytes.ofU32 value.length ++ value := shortHere.encodeRecord_eq
    have size : (encodeRecord key value).length = 8 + key.length + value.length := shortHere.encodeRecord_length
    have cons : encodeRecords ((key, value) :: data) = encodeRecord key value ++ encodeRecords data := rfl
    rw [cons, cutRecords]
    split
    next complete =>
      obtain ⟨rest, split, torn⟩ := ih (fun entry member => short entry (List.mem_cons_of_mem _ member))
        (cut - (8 + key.length + value.length))
      refine ⟨rest, ?_, torn⟩
      rw [List.take_append, List.take_of_length_le (by omega), size, split, encodeRecords_cons, List.append_assoc]
    next incomplete =>
      rw [List.take_append_of_le_length (by omega), encodeRecords_nil]
      refine ⟨_, rfl, ?_⟩
      split
      next headed =>
        have header : (Bytes.ofU32 key.length ++ key ++ Bytes.ofU32 value.length).length = 8 + key.length := by
          simp only [List.length_append, Bytes.length_ofU32]
          omega
        refine ⟨value.length, value.take (cut - (8 + key.length)), shortHere.1, shortHere.2, ?_, ?_⟩
        · rw [List.length_take]
          omega
        · rw [encoded, List.take_append, List.take_of_length_le (by omega), header]
      next =>
        refine ⟨key, key ++ Bytes.ofU32 value.length ++ value, cut, shortHere.1, by omega, ?_⟩
        rw [encoded]
        simp only [List.append_assoc]

/-- The record loop passes over whole records and goes on behind them. -/
theorem recordLoop_append {data : List (Key × Value)} (short : ∀ entry ∈ data, Short entry) (front rest : Bytes)
    (fuel : Nat) :
    recordLoop (front ++ encodeRecords data ++ rest) (data.length + fuel) front.length =
      offsetsFrom front.length data ++
        recordLoop (front ++ encodeRecords data ++ rest) fuel (front ++ encodeRecords data).length := by
  induction data generalizing front with
  | nil => simp [offsetsFrom]
  | cons entry data ih =>
    obtain ⟨key, value⟩ := entry
    have shortHere := short (key, value) (List.mem_cons_self ..)
    have encoded : encodeRecord key value =
        Bytes.ofU32 key.length ++ key ++ Bytes.ofU32 value.length ++ value := shortHere.encodeRecord_eq
    have cons : encodeRecords ((key, value) :: data) = encodeRecord key value ++ encodeRecords data := rfl
    have layout : front ++ encodeRecords ((key, value) :: data) ++ rest =
        front ++ Bytes.ofU32 key.length ++ key ++ Bytes.ofU32 value.length ++
          (value ++ encodeRecords data ++ rest) := by
      rw [cons, encoded]
      simp only [List.append_assoc]
    have next := ih (fun entry member => short entry (List.mem_cons_of_mem _ member)) (front ++ encodeRecord key value)
    have position : front.length + 4 + key.length + 4 + value.length = (front ++ encodeRecord key value).length := by
      simp only [encoded, List.length_append, Bytes.length_ofU32]
      omega
    have count : ((key, value) :: data).length + fuel = data.length + fuel + 1 := by
      rw [List.length_cons]
      omega
    simp only [List.append_assoc] at next
    rw [count, layout, recordLoop_header shortHere.1 shortHere.2, ← layout, position, offsetsFrom, List.cons_append,
      cons]
    rw [← List.length_append]
    simp only [List.append_assoc, next]

/-- A record takes at least eight bytes. -/
theorem length_encodeRecords_ge (data : List (Key × Value)) : 8 * data.length ≤ (encodeRecords data).length := by
  induction data with
  | nil => simp
  | cons entry data ih =>
    have size := encodeRecord_length_ge entry.1 entry.2
    rw [encodeRecords_cons, List.length_append, List.length_cons]
    omega

/-- Recovery of a cut file: the offsets of the whole records, and one more for
a record of which only the value is cut. -/
theorem recordLoop_torn_file {data : List (Key × Value)} (short : ∀ entry ∈ data, Short entry) {rest : Bytes}
    {torn : Option Key} (tear : TornAs rest torn) :
    recordLoop (encodeRecords data ++ rest) (encodeRecords data ++ rest).length 0 =
      offsetsFrom 0 data ++ (torn.map fun key => (key, (encodeRecords data).length)).toList := by
  have many := length_encodeRecords_ge data
  have whole := fun fuel => recordLoop_append short [] rest fuel
  simp only [List.nil_append, List.length_nil] at whole
  cases torn with
  | none =>
    obtain ⟨key, tail, cut, keyShort, inside, rfl⟩ := tear
    obtain ⟨fuel, enough⟩ := Nat.exists_eq_add_of_le
      (show data.length ≤ (encodeRecords data ++ (Bytes.ofU32 key.length ++ tail).take cut).length by
        rw [List.length_append]
        omega)
    rw [enough, whole, recordLoop_torn keyShort _ _ _ _ inside]
    rfl
  | some key =>
    obtain ⟨valLen, part, keyShort, valueShort, cut, rfl⟩ := tear
    obtain ⟨fuel, enough⟩ := Nat.exists_eq_add_of_le
      (show data.length + 1 ≤
        (encodeRecords data ++ (Bytes.ofU32 key.length ++ key ++ Bytes.ofU32 valLen ++ part)).length by
        simp only [List.length_append, Bytes.length_ofU32]
        omega)
    rw [enough, Nat.add_assoc, Nat.add_comm 1, whole]
    have header := recordLoop_header keyShort valueShort (encodeRecords data) part fuel
    simp only [List.append_assoc] at header ⊢
    rw [header, recordLoop_end]
    · rfl
    · simp only [List.length_append, Bytes.length_ofU32]
      omega

/-- The torn record does not read back. -/
theorem readRecordAt_torn {key : Key} {rest : Bytes} (front : Bytes) (tear : TornAs rest (some key)) :
    readRecordAt (front ++ rest) front.length key = none := by
  obtain ⟨valLen, part, keyShort, valueShort, cut, rfl⟩ := tear
  have keyLen := Bytes.readU32At_here front (key ++ Bytes.ofU32 valLen ++ part) keyShort
  have keyBytes := Bytes.readAt_here (front ++ Bytes.ofU32 key.length) key (Bytes.ofU32 valLen ++ part)
  have valueLen := Bytes.readU32At_here (front ++ Bytes.ofU32 key.length ++ key) part valueShort
  simp only [List.length_append, Bytes.length_ofU32, List.append_assoc] at keyLen keyBytes valueLen
  simp only [readRecordAt, List.append_assoc, keyLen, Option.bind_eq_bind, Option.bind_some, keyBytes, if_true]
  rw [← Nat.add_assoc] at valueLen
  rw [valueLen, Option.bind_some, Bytes.readAt_eq_none_iff]
  simp only [List.length_append, Bytes.length_ofU32]
  omega

/-- The entries a cut file answers with: its whole records, less those of the
key whose last record is torn. -/
def survivors : List (Key × Value) × Option Key → List (Key × Value)
  | (written, none) => written
  | (written, some key) => written.filter (·.1 ≠ key)

/-- After recovery a cut file answers for each key with its last whole record,
but not for the key of the torn one. -/
theorem lookup_cut {dir : Directory} {path : FileName} {data : List (Key × Value)} {cut : Nat}
    (short : ∀ entry ∈ data, Short entry) (file : dir[path]? = some ((encodeRecords data).take cut)) (key : Key) :
    SSTableManager.lookup (readValueAt dir) (recoverIndex path ((encodeRecords data).take cut)) key =
      lastValue (survivors (cutRecords data cut)) key := by
  obtain ⟨rest, split, tear⟩ := cutRecords_spec short cut
  have shortWritten : ∀ entry ∈ (cutRecords data cut).1, Short entry := fun entry member =>
    short entry ((cutRecords_isFront data cut).subset member)
  have back := readRecordAt_lastOffset shortWritten [] rest key
  simp only [List.nil_append, List.length_nil] at back
  rw [lookup_recoverIndex, split, recordLoop_torn_file shortWritten tear, lastValue_append]
  simp only [readValueAt, file, split, Option.bind_some]
  generalize cutRecords data cut = parts at *
  obtain ⟨written, torn⟩ := parts
  cases torn with
  | none => simpa [survivors] using back
  | some k =>
    have failed := readRecordAt_torn (encodeRecords written) tear
    have single : lastValue [(k, (encodeRecords written).length)] key =
        if key = k then some (encodeRecords written).length else none := lastValue_concat [] _ key
    simp only [Option.map_some, Option.toList_some, single, survivors, lastValue_filter]
    by_cases here : key = k
    · subst here
      simpa using failed
    · simpa [here] using back

/-- Recovery of a complete file finds each record where the flush wrote it. -/
theorem recordLoop_records {data : List (Key × Value)} (short : ∀ entry ∈ data, Short entry) :
    recordLoop (encodeRecords data) (encodeRecords data).length 0 = offsetsFrom 0 data := by
  have nothing : TornAs [] none := ⟨[], [], 0, by simp, by simp, rfl⟩
  have all := recordLoop_torn_file short nothing
  simpa using all

/-- The index built from a complete file is the one its flush published. -/
theorem recoverIndex_records (path : FileName) {data : List (Key × Value)} (short : ∀ entry ∈ data, Short entry) :
    recoverIndex path (encodeRecords data) = tableOf path data := by
  rw [recoverIndex, recordLoop_records short, tableOf]

/-- Complete files have no cut, so recovery finds in them what the flushes published. -/
theorem get_recovered {dir : Directory} (older : List (Nat × List (Key × Value)))
    (files : ∀ file ∈ older, dir[fileName file.1]? = some (encodeRecords file.2))
    (short : ∀ entry ∈ (older.map (·.2)).flatten, Short entry) (base : List L0Index) (key : Key) :
    SSTableManager.get (readValueAt dir)
        ((older.map fun file => recoverIndex (fileName file.1) (encodeRecords file.2)).reverse ++ base) key =
      (lastValue (older.map (·.2)).flatten key).or (SSTableManager.get (readValueAt dir) base key) := by
  have published : (older.map fun file => recoverIndex (fileName file.1) (encodeRecords file.2)).reverse =
      (older.reverse.map fun file => (fileName file.1, file.2)).map fun table => tableOf table.1 table.2 := by
    rw [List.map_map, List.map_reverse]
    refine congrArg List.reverse (List.map_congr_left fun file member => recoverIndex_records _ fun entry inFile => ?_)
    exact short entry (List.mem_flatten.mpr ⟨file.2, List.mem_map_of_mem member, inFile⟩)
  have log : Tables.log (older.reverse.map fun file => (fileName file.1, file.2)) = (older.map (·.2)).flatten := by
    simp [Tables.log, ← List.map_reverse, Function.comp_def]
  have stored : Stored dir (older.reverse.map fun file => (fileName file.1, file.2)) := by
    intro table member
    obtain ⟨file, inOlder, rfl⟩ := List.mem_map.mp member
    exact ⟨[], by rw [files file (List.mem_reverse.mp inOlder), List.append_nil]⟩
  have found := get_tables stored (log ▸ short) base key
  rwa [← published, log] at found

end LSMIO
