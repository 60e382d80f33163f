import LSMIO.RecordLoop

namespace LSMIO

/-- A pass of the record loop from a position to its end, with the entries it
appends: `peek` at the end of the file, each of the three short reads, or a record and the pass behind it. -/
inductive RecordPass (content : Bytes) : Nat → Index Key → Prop
  | endOfFile {position : Nat} (past : content.length ≤ position) : RecordPass content position []
  | shortKeyLen {position : Nat} (more : position < content.length) (short : content.readU32At position = none) :
      RecordPass content position []
  | shortKey {position keyLen : Nat} (more : position < content.length)
    (keyLenRead : content.readU32At position = some keyLen)
      (short : content.readAt (position + 4) keyLen = none) : RecordPass content position []
  | shortValLen {position keyLen : Nat} {key : Key} (more : position < content.length)
      (keyLenRead : content.readU32At position = some keyLen)
        (keyRead : content.readAt (position + 4) keyLen = some key)
      (short : content.readU32At (position + 4 + keyLen) = none) : RecordPass content position []
  | record {position keyLen valLen : Nat} {key : Key} {rest : Index Key} (more : position < content.length)
      (keyLenRead : content.readU32At position = some keyLen)
        (keyRead : content.readAt (position + 4) keyLen = some key)
      (valLenRead : content.readU32At (position + 4 + keyLen) = some valLen)
      (behind : RecordPass content (position + 4 + keyLen + 4 + valLen) rest) :
      RecordPass content position ((key, position) :: rest)

/-- At the offset stand the length of the key and the key, and four bytes more. -/
structure HeaderAt (content : Bytes) (offset : Nat) (key : Key) : Prop where
  keyLen : content.readU32At offset = some key.length
  keyBytes : content.readAt (offset + 4) key.length = some key
  inside : offset + 4 + key.length + 4 ≤ content.length

/-- One record after another: the value length that stands behind the first
key says where the second record begins. -/
def Consecutive (content : Bytes) (a b : Key × Nat) : Prop :=
  ∃ valLen, content.readU32At (a.2 + 4 + a.1.length) = some valLen ∧ b.2 = a.2 + (8 + a.1.length + valLen)

/-- The ends of `readValueAt`, the report of an index mismatch apart from the other failures. -/
inductive ReadOutcome
  | openFailed
  | shortRead
  | indexMismatch
  | found (value : Value)
  deriving DecidableEq

namespace ReadOutcome

def value? : ReadOutcome → Option Value
  | found value => some value
  | _ => none

end ReadOutcome

def readRecordOutcome (content : Bytes) (offset : Nat) (key : Key) : ReadOutcome :=
  match content.readU32At offset with
  | none => .shortRead
  | some keyLen => match content.readAt (offset + 4) keyLen with
    | none => .shortRead
    | some keyFromFile =>
      if keyFromFile ≠ key then .indexMismatch
      else match content.readU32At (offset + 4 + keyLen) with
        | none => .shortRead
        | some valLen => match content.readAt (offset + 4 + keyLen + 4) valLen with
          | none => .shortRead
          | some value => .found value

def readValueOutcome (dir : Directory) (path : FileName) (offset : Nat) (key : Key) : ReadOutcome :=
  match dir[path]? with
  | none => .openFailed
  | some content => readRecordOutcome content offset key

/-- The outcome refines the answer of `readValueAt`. -/
theorem readValueAt_eq_outcome (dir : Directory) (path : FileName) (offset : Nat) (key : Key) :
    readValueAt dir path offset key = (readValueOutcome dir path offset key).value? := by
  rw [readValueAt, readValueOutcome]
  cases dir[path]? with
  | none => rfl
  | some content =>
    simp only [Option.bind_some, readRecordAt, readRecordOutcome]
    cases content.readU32At offset with
    | none => rfl
    | some keyLen =>
      simp only [Option.bind_eq_bind, Option.bind_some]
      cases content.readAt (offset + 4) keyLen with
      | none => rfl
      | some keyFromFile =>
        simp only [Option.bind_some, ne_eq, ite_not]
        split
        · cases content.readU32At (offset + 4 + keyLen) with
          | none => rfl
          | some valLen =>
            simp only [Option.bind_some]
            cases content.readAt (offset + 4 + keyLen + 4) valLen <;> rfl
        · rfl

/-- The loop ends on every file: a record takes at least eight bytes, so the
fuel of `recordLoop` is never what stops it. -/
theorem recordPass_recordLoop {content : Bytes} {fuel position : Nat} (enough : content.length ≤ position + fuel) :
    RecordPass content position (recordLoop content fuel position) := by
  induction fuel generalizing position with
  | zero => exact .endOfFile enough
  | succ fuel ih =>
    rw [recordLoop]
    split
    next past => exact .endOfFile past
    next notPast =>
      have more : position < content.length := Nat.lt_of_not_le notPast
      cases keyLenRead : content.readU32At position with
      | none => exact .shortKeyLen more keyLenRead
      | some keyLen =>
        simp only
        cases keyRead : content.readAt (position + 4) keyLen with
        | none => exact .shortKey more keyLenRead keyRead
        | some key =>
          simp only
          cases valLenRead : content.readU32At (position + 4 + keyLen) with
          | none => exact .shortValLen more keyLenRead keyRead valLenRead
          | some valLen => exact .record more keyLenRead keyRead valLenRead (ih (by omega))

namespace RecordPass

variable {content : Bytes} {position : Nat} {entries : Index Key}

/-- Every pass is the one of the model. -/
theorem eq_recordLoop (pass : RecordPass content position entries) {fuel : Nat}
    (enough : content.length ≤ position + fuel) :
    entries = recordLoop content fuel position := by
  induction pass generalizing fuel with
  | endOfFile past => exact (recordLoop_end past).symm
  | shortKeyLen more short =>
    cases fuel with
    | zero => rfl
    | succ fuel => rw [recordLoop, if_neg (Nat.not_le.mpr more), short]
  | shortKey more keyLenRead short =>
    cases fuel with
    | zero => rfl
    | succ fuel => simp only [recordLoop, if_neg (Nat.not_le.mpr more), keyLenRead, short]
  | shortValLen more keyLenRead keyRead short =>
    cases fuel with
    | zero => rfl
    | succ fuel => simp only [recordLoop, if_neg (Nat.not_le.mpr more), keyLenRead, keyRead, short]
  | record more keyLenRead keyRead valLenRead behind ih =>
    cases fuel with
    | zero => omega
    | succ fuel =>
      have next := @ih fuel (by omega)
      simp only [recordLoop, if_neg (Nat.not_le.mpr more), keyLenRead, keyRead, valLenRead, ← next]

theorem headerAt (pass : RecordPass content position entries) {key : Key} {offset : Nat}
    (member : (key, offset) ∈ entries) : HeaderAt content offset key := by
  induction pass with
  | endOfFile | shortKeyLen | shortKey | shortValLen => cases member
  | @record position keyLen valLen found rest more keyLenRead keyRead valLenRead behind ih =>
    rcases List.mem_cons.mp member with here | later
    · cases here
      have length := Bytes.length_of_readAt keyRead
      subst length
      refine ⟨keyLenRead, keyRead, ?_⟩
      by_contra short
      rw [Bytes.readU32At_eq_none_iff.mpr (by omega)] at valLenRead
      cases valLenRead
    · exact ih later

/-- The first record stands where the pass begins, and each one where its predecessor ends. -/
theorem consecutive (pass : RecordPass content position entries) :
    (∀ entry ∈ entries.head?, entry.2 = position) ∧ entries.IsChain (Consecutive content) := by
  induction pass with
  | endOfFile | shortKeyLen | shortKey | shortValLen => simp
  | @record position keyLen valLen key rest more keyLenRead keyRead valLenRead behind ih =>
    obtain ⟨first, chain⟩ := ih
    refine ⟨by simp, List.isChain_cons.mpr ⟨fun next atHead => ?_, chain⟩⟩
    have length := Bytes.length_of_readAt keyRead
    subst length
    refine ⟨valLen, valLenRead, ?_⟩
    have starts := first next atHead
    simp only
    omega

end RecordPass

/-- Where the header of a key stands, its record is read without a mismatch. -/
theorem HeaderAt.not_indexMismatch {content : Bytes} {offset : Nat} {key : Key} (header : HeaderAt content offset key) :
    readRecordOutcome content offset key ≠ .indexMismatch := by
  rw [readRecordOutcome, header.keyLen]
  simp only [header.keyBytes, ne_eq, not_true_eq_false, if_false]
  split
  · simp
  · split <;> simp

/-- Recovery is sound on arbitrary bytes. The record loop ends, in one way
only; the records it parses stand one behind the other; the index holds the
largest offset of each key among them, keys ascending; and at each of its
offsets stand the length of the key, the key and four bytes more, so that
`readValueAt` meets no mismatch as long as the file is unchanged. -/
theorem recoverIndex_sound (path : FileName) (content : Bytes) :
    ∃ parsed, RecordPass content 0 parsed ∧ (∀ other, RecordPass content 0 other → other = parsed) ∧
      parsed.IsChain (Consecutive content) ∧
      (recoverIndex path content).offsets.Sorted ∧
      (∀ key offset, (key, offset) ∈ (recoverIndex path content).offsets ↔ parsed.IsLargest key offset) ∧
      (∀ key offset, (key, offset) ∈ (recoverIndex path content).offsets → HeaderAt content offset key) ∧
      ∀ (dir : Directory), dir[path]? = some content →
        ∀ key offset, (key, offset) ∈ (recoverIndex path content).offsets →
          readValueOutcome dir path offset key ≠ .indexMismatch := by
  have enough : content.length ≤ 0 + content.length := by omega
  have pass := recordPass_recordLoop enough
  have largest := (Index.sortUnique_spec (recordLoop content content.length 0)).2
  have header : ∀ key offset, (key, offset) ∈ (recoverIndex path content).offsets → HeaderAt content offset key :=
    fun key offset member => pass.headerAt ((largest key offset).mp member).1
  refine ⟨_, pass, fun other also => also.eq_recordLoop enough, pass.consecutive.2, (recoverIndex path content).sorted,
    largest, header, fun dir file key offset member => ?_⟩
  rw [readValueOutcome, file]
  exact (header key offset member).not_indexMismatch

end LSMIO
