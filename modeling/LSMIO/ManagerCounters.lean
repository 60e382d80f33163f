import LSMIO.ManagerWrites
import LSMIO.MetadataListing

namespace LSMIO

/-- The counters of a manager. -/
structure Counters where
  writeBytes : UInt64
  readBytes : UInt64
  writeOps : UInt64
  readOps : UInt64
  deriving DecidableEq

namespace Counters

/-- At the construction of a manager. -/
def start : Counters := ⟨0, 0, 0, 0⟩

def resetCounters (_ : Counters) : Counters := ⟨0, 0, 0, 0⟩

def countWrite (c : Counters) (bytes : Nat) : Counters :=
  { c with writeBytes := c.writeBytes + .ofNat bytes, writeOps := c.writeOps + 1 }

def countRead (c : Counters) (bytes : Nat) : Counters :=
  { c with readBytes := c.readBytes + .ofNat bytes, readOps := c.readOps + 1 }

end Counters

/-- The calls that count, with what the caller's string or vector holds before a read. -/
inductive CountedCall
  | put (key : Key) (value : Value) (flush : Bool)
  | metaPut (key : Key) (value : Value) (flush : Bool)
  | get (key : Key) (value : Value)
  | metaGet (key : Key) (value : Value)
  | metaGetAll (values : List (Key × Value)) (inFix : Bytes)

namespace CountedCall

/-- The length of the value passed to a write. -/
def written : CountedCall → Nat
  | .put _ value _ | .metaPut _ value _ => value.length
  | _ => 0

def isWrite : CountedCall → Bool
  | .put _ _ _ | .metaPut _ _ _ => true
  | _ => false

end CountedCall

/-- The bytes of a list of pairs. -/
def totalLength (values : List (Key × Value)) : Nat := (values.map fun tup => tup.1.length + tup.2.length).sum

namespace LSMIOManager

section Counting

variable {σ : Type*} (store : LSMIOStore σ) (alwaysFlush : Bool) (m : LSMIOManager) (s : σ)

/-- The counters after a call, if it returns. A write counts before it goes to
the store or to the aggregator; a read counts what its output holds at the end:
the length of the string, and for a list the size of the vector, or on a client rank the length of the reply. -/
def count (c : Counters) : CountedCall → Option Counters
  | .put _ value _ => some (c.countWrite value.length)
  | .metaPut _ value _ => some (c.countWrite value.length)
  | .get key value => (m.get store alwaysFlush s key value).map fun r => c.countRead r.2.length
  | .metaGet key value => (m.metaGet store alwaysFlush s key value).map fun r => c.countRead r.2.length
  | .metaGetAll values inFix =>
    if m.isOpenLocal then some (c.countRead (values ++ (store.metaGetAll s inFix).2).length)
    else (m.exchange store alwaysFlush s .metaGetAll).map fun reply => c.countRead reply.value.length

/-- The length that a read counts, if it returns. -/
def countedBytes : CountedCall → Option Nat
  | .put _ _ _ | .metaPut _ _ _ => some 0
  | .get key value => (m.get store alwaysFlush s key value).map fun r => r.2.length
  | .metaGet key value => (m.metaGet store alwaysFlush s key value).map fun r => r.2.length
  | .metaGetAll values inFix =>
    if m.isOpenLocal then some (values ++ (store.metaGetAll s inFix).2).length
    else (m.exchange store alwaysFlush s .metaGetAll).map fun reply => reply.value.length

/-- The counters after a sequence of calls, each on the store as it is then. -/
def counts (calls : List (σ × CountedCall)) (c : Counters) : Option Counters :=
  calls.foldlM (fun c call => m.count store alwaysFlush call.1 c call.2) c

/-- What a read of one key finds: in the own store, or in the aggregator's under the key as it reads it. -/
def found (lookup : Key → Option Value) (key : Key) (request : Command) : Option Value :=
  if m.isOpenLocal then lookup (m.rankedKey m.aggRank key)
  else (received request.message.serialize).bind fun msg => lookup (m.aggregator.rankedKey m.aggRank msg.key)

/-- The pairs that a listing hands to its caller. -/
def listed (inFix : Bytes) : List (Key × Value) :=
  if m.isOpenLocal then (store.metaGetAll s inFix).2
  else vectorTupleDeserialize (vectorTupleSerialize (m.listedFor store s)) []

/-- No counter comes to 2^64 with the calls. -/
structure NoWrap (calls : List (σ × CountedCall)) : Prop where
  written : (calls.map fun call => call.2.written).sum < 2 ^ 64
  read : (calls.map fun call => (m.countedBytes store alwaysFlush call.1 call.2).getD 0).sum < 2 ^ 64
  ops : calls.length < 2 ^ 64

/-- The data a call delivers to its caller. -/
def deliveredBytes : CountedCall → Nat
  | .put _ _ _ | .metaPut _ _ _ => 0
  | .get key _ => ((m.found (store.get s) key (.get key)).map List.length).getD 0
  | .metaGet key _ => ((m.found (store.metaGet s) key (.metaGet key)).map List.length).getD 0
  | .metaGetAll _ inFix => totalLength (m.listed store s inFix)

/-- The calls whose count is right: on a local manager a miss that is given an
empty string, and a listing after which the vector has as many elements as its
new pairs have bytes; on a client rank a listing of nothing. -/
def CountsRight : CountedCall → Prop
  | .put _ _ _ | .metaPut _ _ _ => True
  | .get key value => m.isOpenLocal = true → store.get s (m.rankedKey m.aggRank key) = none → value = []
  | .metaGet key value => m.isOpenLocal = true → store.metaGet s (m.rankedKey m.aggRank key) = none → value = []
  | .metaGetAll values inFix =>
    if m.isOpenLocal then values.length + (store.metaGetAll s inFix).2.length = totalLength (store.metaGetAll s inFix).2
    else m.listedFor store s = []

end Counting

end LSMIOManager

@[simp] theorem totalLength_nil : totalLength [] = 0 := rfl

theorem totalLength_filterMap_cons (line : Bytes) (rest : List Bytes) :
    totalLength ((line :: rest).filterMap tupleOfLine) =
      totalLength (tupleOfLine line).toList + totalLength (rest.filterMap tupleOfLine) := by
  rw [List.filterMap_cons]
  cases tupleOfLine line <;> simp [totalLength]

/-- A pair takes at least one byte less than its line, for the bar. -/
theorem totalLength_tupleOfLine (line : Bytes) : totalLength (tupleOfLine line).toList ≤ line.length - 1 := by
  cases parsed : tupleOfLine line with
  | none => simp
  | some tup =>
    obtain ⟨whole, -⟩ := tupleOfLine_eq_some_iff.mp parsed
    rw [whole]
    simp [totalLength]

/-- The pairs of a text have fewer bytes than the text. -/
theorem totalLength_deserialize_lt {data : Bytes} (written : data ≠ []) :
    totalLength (vectorTupleDeserialize data []) < data.length := by
  simp only [vectorTupleDeserialize, List.nil_append]
  induction size : data.length using Nat.strong_induction_on generalizing data with
  | _ n ih =>
    subst size
    rcases Bytes.line_cases 10 data with fresh | ⟨line, rest, rfl, fresh⟩
    · have bound := totalLength_tupleOfLine data
      have positive := List.length_pos_iff.mpr written
      rw [Bytes.lines_last fresh written, totalLength_filterMap_cons, List.filterMap_nil, totalLength_nil]
      omega
    · have bound := totalLength_tupleOfLine line
      rw [Bytes.lines_delimited fresh, totalLength_filterMap_cons, List.length_append, List.length_cons]
      rcases eq_or_ne rest [] with rfl | more
      · rw [Bytes.lines_nil, List.filterMap_nil, totalLength_nil]
        omega
      · have behind := ih rest.length (by rw [List.length_append, List.length_cons]; omega) more rfl
        omega

theorem vectorTupleSerialize_eq_nil_iff (values : List (Key × Value)) :
    vectorTupleSerialize values = [] ↔ values = [] := by
  cases values with
  | nil => simp [vectorTupleSerialize]
  | cons tup values => simp [vectorTupleSerialize, ascii]

/-- A client counts a whole reply, of which the delimiters are not delivered. -/
theorem length_serialize_eq_iff (values : List (Key × Value)) :
    (vectorTupleSerialize values).length = totalLength (vectorTupleDeserialize (vectorTupleSerialize values) []) ↔
      values = [] := by
  constructor
  · intro same
    by_contra some
    exact absurd same (totalLength_deserialize_lt ((vectorTupleSerialize_eq_nil_iff values).not.mpr some)).ne'
  · rintro rfl
    rfl

namespace LSMIOManager

variable {σ : Type*} {store : LSMIOStore σ} {alwaysFlush : Bool} {m : LSMIOManager} {s : σ}

/-- A reply answers the request as the aggregator has read it. -/
theorem exchange_cases {request : Command} {reply : Message}
    (answered : m.exchange store alwaysFlush s request = some reply) :
    ∃ msg, received request.message.serialize = some msg ∧ msg.command = request.message.command ∧
      (m.aggregator.handleCommand store alwaysFlush s m.aggRank msg).2 = some reply := by
  obtain ⟨msg, read, handled⟩ := Option.bind_eq_some_iff.mp answered
  obtain ⟨back, made, readBack⟩ := Option.bind_eq_some_iff.mp handled
  obtain ⟨command, plain⟩ := command_of_deSerializeCmd request.plain_message_command read
  obtain ⟨name, known, same⟩ := Option.map_eq_some_iff.mp made
  have sent : received back.serialize = some back := by
    rw [← same]
    exact Message.received_serialize (plain_replyCommand known) plain
  rw [sent] at readBack
  exact ⟨msg, read, command, made.trans readBack⟩

/-- The value of a reply is what the callback leaves in `*gValue`. -/
theorem value_of_handleCommand {rank : Nat} {msg reply : Message}
    (made : (m.handleCommand store alwaysFlush s rank msg).2 = some reply) :
    reply.value = (m.callbackForCollectiveIO store alwaysFlush s rank msg.command msg.key [] msg.value).2 := by
  rw [handleCommand] at made
  obtain ⟨name, -, same⟩ := Option.map_eq_some_iff.mp made
  exact (congrArg Message.value same).symm

/-- What a read of one key counts is the data it found, unless a local miss leaves an older string in place. -/
theorem length_readKey {found : Option Value} {request : Command} {back : Bytes} {value : Value} {r : Bool × Value}
    {lookup : Key → Option Value} {key : Key} (own : found = lookup (m.rankedKey m.aggRank key))
    (served : ∀ msg : Message, msg.command = request.message.command → ∀ reply,
      (m.aggregator.handleCommand store alwaysFlush s m.aggRank msg).2 = some reply →
        reply.value = (lookup (m.aggregator.rankedKey m.aggRank msg.key)).getD [])
    (read : m.readKey store alwaysFlush s found request back value = some r) :
    r.2.length = ((m.found lookup key request).map List.length).getD 0 ↔
      (m.isOpenLocal = true → lookup (m.rankedKey m.aggRank key) = none → value = []) := by
  rw [readKey] at read
  rw [LSMIOManager.found]
  split at read
  next opened =>
    cases read
    rw [if_pos opened, ← own]
    cases found <;> simp [opened]
  next remote =>
    obtain ⟨reply, answered, rfl⟩ := Option.map_eq_some_iff.mp read
    obtain ⟨msg, parsed, command, made⟩ := exchange_cases answered
    rw [if_neg remote, parsed, Option.bind_some, served msg command reply made]
    cases lookup (m.aggregator.rankedKey m.aggRank msg.key) <;> simp [remote]

/-- A call adds to the counters what it has written and the bytes it counts as read. -/
theorem count_cases {c c' : Counters} {call : CountedCall} (counted : m.count store alwaysFlush s c call = some c') :
    ∃ bytes, m.countedBytes store alwaysFlush s call = some bytes ∧
      (call.isWrite = true ∧ bytes = 0 ∧ c' = c.countWrite call.written ∨
        call.isWrite = false ∧ call.written = 0 ∧ c' = c.countRead bytes) := by
  cases call with
  | put key value flush | metaPut key value flush =>
    cases counted
    exact ⟨0, rfl, .inl ⟨rfl, rfl, rfl⟩⟩
  | get key value | metaGet key value =>
    obtain ⟨r, read, rfl⟩ := Option.map_eq_some_iff.mp counted
    exact ⟨r.2.length, by rw [countedBytes, read]; rfl, .inr ⟨rfl, rfl, rfl⟩⟩
  | metaGetAll values inFix =>
    simp only [count] at counted
    split at counted
    next opened =>
      cases counted
      exact ⟨_, by rw [countedBytes, if_pos opened], .inr ⟨rfl, rfl, rfl⟩⟩
    next remote =>
      obtain ⟨reply, answered, rfl⟩ := Option.map_eq_some_iff.mp counted
      exact ⟨reply.value.length, by rw [countedBytes, if_neg remote, answered]; rfl, .inr ⟨rfl, rfl, rfl⟩⟩

/-- A call counts the bytes it delivers exactly when it is one whose count is right. -/
theorem countedBytes_eq_iff {call : CountedCall} {bytes : Nat}
    (counted : m.countedBytes store alwaysFlush s call = some bytes) :
    bytes = m.deliveredBytes store s call ↔ m.CountsRight store s call := by
  cases call with
  | put key value flush | metaPut key value flush =>
    cases counted
    simp [deliveredBytes, CountsRight]
  | get key value =>
    obtain ⟨r, read, rfl⟩ := Option.map_eq_some_iff.mp counted
    refine length_readKey rfl (fun msg command reply made => ?_) read
    rw [value_of_handleCommand made, command]
    rfl
  | metaGet key value =>
    obtain ⟨r, read, rfl⟩ := Option.map_eq_some_iff.mp counted
    refine length_readKey rfl (fun msg command reply made => ?_) read
    rw [value_of_handleCommand made, command]
    rfl
  | metaGetAll values inFix =>
    simp only [countedBytes] at counted
    split at counted
    next opened =>
      cases counted
      rw [deliveredBytes, listed, CountsRight, if_pos opened, if_pos opened, List.length_append]
    next remote =>
      obtain ⟨reply, answered, rfl⟩ := Option.map_eq_some_iff.mp counted
      have same : reply.value = vectorTupleSerialize (m.listedFor store s) := by
        rw [exchange_eq (c := .metaGetAll) plain_dummy] at answered
        rw [value_of_handleCommand answered]
        rfl
      rw [deliveredBytes, listed, CountsRight, if_neg remote, if_neg remote, same, length_serialize_eq_iff]

variable (store) (m)

/-- The counters say what a sequence of calls has transferred. -/
structure Accounts (calls : List (σ × CountedCall)) (c : Counters) : Prop where
  writeBytes : c.writeBytes.toNat = (calls.map fun call => call.2.written).sum
  writeOps : c.writeOps.toNat = calls.countP fun call => call.2.isWrite
  readBytes : c.readBytes.toNat = (calls.map fun call => m.deliveredBytes store call.1 call.2).sum
  readOps : c.readOps.toNat = calls.countP fun call => !call.2.isWrite

/-- The counters hold what a sequence of calls has counted. -/
structure Counted (alwaysFlush : Bool) (calls : List (σ × CountedCall)) (c : Counters) : Prop where
  writeBytes : c.writeBytes.toNat = (calls.map fun call => call.2.written).sum
  writeOps : c.writeOps.toNat = calls.countP fun call => call.2.isWrite
  readBytes : c.readBytes.toNat = (calls.map fun call => (m.countedBytes store alwaysFlush call.1 call.2).getD 0).sum
  readOps : c.readOps.toNat = calls.countP fun call => !call.2.isWrite

variable {store} {m}

theorem NoWrap.front {calls later : List (σ × CountedCall)} (noWrap : m.NoWrap store alwaysFlush (calls ++ later)) :
    m.NoWrap store alwaysFlush calls := by
  obtain ⟨written, read, ops⟩ := noWrap
  rw [List.map_append, List.sum_append] at written read
  rw [List.length_append] at ops
  exact ⟨by omega, by omega, by omega⟩

theorem counts_snoc {calls : List (σ × CountedCall)} {call : σ × CountedCall} {start c : Counters}
    (counted : m.counts store alwaysFlush (calls ++ [call]) start = some c) :
    ∃ before, m.counts store alwaysFlush calls start = some before ∧
      m.count store alwaysFlush call.1 before call.2 = some c := by
  rw [counts, List.foldlM_append] at counted
  obtain ⟨before, front, last⟩ := Option.bind_eq_some_iff.mp counted
  exact ⟨before, front, by simpa using last⟩

theorem toNat_add_ofNat {total : UInt64} {sum k : Nat} (holds : total.toNat = sum) (fits : sum + k < 2 ^ 64) :
    (total + .ofNat k).toNat = sum + k := by
  rw [UInt64.toNat_add, UInt64.toNat_ofNat', holds]
  omega

theorem Counted.snoc {calls : List (σ × CountedCall)} {call : σ × CountedCall} {before c : Counters}
    (counted : m.Counted store alwaysFlush calls before) (noWrap : m.NoWrap store alwaysFlush (calls ++ [call]))
    (last : m.count store alwaysFlush call.1 before call.2 = some c) :
    m.Counted store alwaysFlush (calls ++ [call]) c := by
  obtain ⟨bytes, read, added⟩ := count_cases last
  obtain ⟨writtenFits, readFits, opsFit⟩ := noWrap
  have writes := List.countP_le_length (p := fun call : σ × CountedCall => call.2.isWrite) (l := calls)
  have reads := List.countP_le_length (p := fun call : σ × CountedCall => !call.2.isWrite) (l := calls)
  simp only [List.map_append, List.map_singleton, List.sum_append, List.sum_singleton, read,
    Option.getD_some] at writtenFits readFits
  rw [List.length_append, List.length_singleton] at opsFit
  rcases added with ⟨isWrite, rfl, rfl⟩ | ⟨isRead, written, rfl⟩
  · refine ⟨?_, ?_, ?_, ?_⟩
    · simpa [Counters.countWrite] using toNat_add_ofNat counted.writeBytes writtenFits
    · simpa [Counters.countWrite, List.countP_append, isWrite] using
        toNat_add_ofNat (k := 1) counted.writeOps (by omega)
    · simpa [Counters.countWrite, read] using counted.readBytes
    · simpa [Counters.countWrite, List.countP_append, isWrite] using counted.readOps
  · refine ⟨?_, ?_, ?_, ?_⟩
    · simpa [Counters.countRead, written] using counted.writeBytes
    · simpa [Counters.countRead, List.countP_append, isRead] using counted.writeOps
    · simpa [Counters.countRead, read] using toNat_add_ofNat counted.readBytes readFits
    · simpa [Counters.countRead, List.countP_append, isRead] using toNat_add_ofNat (k := 1) counted.readOps (by omega)

/-- As long as none wraps, the counters hold what the calls have counted. -/
theorem Counted.of_counts {calls : List (σ × CountedCall)} {before c : Counters}
    (noWrap : m.NoWrap store alwaysFlush calls)
    (returned : m.counts store alwaysFlush calls before.resetCounters = some c) :
    m.Counted store alwaysFlush calls c := by
  induction calls using List.reverseRecOn generalizing c with
  | nil =>
    cases returned
    exact ⟨rfl, rfl, rfl, rfl⟩
  | append_singleton calls call ih =>
    obtain ⟨middle, front, last⟩ := counts_snoc returned
    exact (ih noWrap.front front).snoc noWrap last

theorem Counted.accounts_iff {calls : List (σ × CountedCall)} {c : Counters}
    (counted : m.Counted store alwaysFlush calls c) :
    m.Accounts store calls c ↔ (calls.map fun call => (m.countedBytes store alwaysFlush call.1 call.2).getD 0).sum =
      (calls.map fun call => m.deliveredBytes store call.1 call.2).sum :=
  ⟨fun accounts => counted.readBytes.symm.trans accounts.readBytes,
    fun same => ⟨counted.writeBytes, counted.writeOps, counted.readBytes.trans same, counted.readOps⟩⟩

theorem Accounts.snoc_iff {calls : List (σ × CountedCall)} {call : σ × CountedCall} {before c : Counters}
    (accounts : m.Accounts store calls before) (counted : m.Counted store alwaysFlush calls before)
    (noWrap : m.NoWrap store alwaysFlush (calls ++ [call]))
    (last : m.count store alwaysFlush call.1 before call.2 = some c) :
    m.Accounts store (calls ++ [call]) c ↔ m.CountsRight store call.1 call.2 := by
  obtain ⟨bytes, read, -⟩ := count_cases last
  rw [(counted.snoc noWrap last).accounts_iff, ← countedBytes_eq_iff read]
  simp only [List.map_append, List.map_singleton, List.sum_append, List.sum_singleton,
    counted.accounts_iff.mp accounts, read,
    Option.getD_some, Nat.add_left_cancel_iff]

/-- After construction or a reset the counters account for every part of a sequence of calls, as long as none of them
wraps, exactly when each call is one whose count is right. -/
theorem counters_account_iff (store : LSMIOStore σ) (alwaysFlush : Bool) (m : LSMIOManager) (before : Counters)
    {calls : List (σ × CountedCall)} {c : Counters} (noWrap : m.NoWrap store alwaysFlush calls)
    (returned : m.counts store alwaysFlush calls before.resetCounters = some c) :
    (∀ front, front <+: calls → ∀ c, m.counts store alwaysFlush front before.resetCounters = some c →
      Accounts store m front c) ↔
      ∀ call ∈ calls, m.CountsRight store call.1 call.2 := by
  induction calls using List.reverseRecOn generalizing c with
  | nil =>
    refine iff_of_true (fun front within c counted => ?_) (by simp)
    obtain rfl := List.prefix_nil.mp within
    cases counted
    exact ⟨rfl, rfl, rfl, rfl⟩
  | append_singleton calls call ih =>
    obtain ⟨middle, front, last⟩ := counts_snoc returned
    have counted := Counted.of_counts noWrap.front front
    rw [List.forall_mem_append, List.forall_mem_singleton, ← ih noWrap.front front]
    constructor
    · intro every
      refine ⟨fun part within => every part (within.trans (List.prefix_append ..)), ?_⟩
      exact ((every calls (List.prefix_append ..) middle front).snoc_iff counted noWrap last).mp
        (every _ (List.prefix_refl _) c returned)
    · rintro ⟨every, right⟩ part within c' counts
      rcases List.prefix_concat_iff.mp within with rfl | shorter
      · obtain rfl := Option.some.inj (returned.symm.trans counts)
        exact ((every calls (List.prefix_refl _) middle front).snoc_iff counted noWrap last).mpr right
      · exact every part shorter c' counts

/-- A write, a read that finds it, and a miss that is given an empty string. -/
theorem counters_account_local : Accounts .ofMap ⟨false, 0, 1⟩
    [(∅, .put [1] [2, 3] true), ((∅ : LSMIOStore.StoreMap).insert [1] [2, 3], .get [1] [9]), (∅, .metaGet [1] [])]
      ⟨2, 2, 1, 2⟩ := by
  refine (counters_account_iff .ofMap true ⟨false, 0, 1⟩ ⟨7, 7, 7, 7⟩ (c := ⟨2, 2, 1, 2⟩)
    ⟨by decide +kernel, by decide +kernel, by decide⟩ (by decide +kernel)).mpr ?_ _
    (List.prefix_refl _) _ (by decide +kernel)
  intro call member
  simp only [List.mem_cons, List.not_mem_nil, or_false] at member
  rcases member with rfl | rfl | rfl
  · exact trivial
  · intro _ miss
    exact absurd miss (by decide +kernel)
  · exact fun _ _ => rfl

/-- A miss is counted with the length of the caller's old string, and the same
pair of metadata as one byte on a local manager and as a whole line on a client rank. -/
theorem not_counters_account :
    (¬ ∀ (m : LSMIOManager) (calls : List (LSMIOStore.StoreMap × CountedCall)) (c : Counters),
        m.counts .ofMap true calls .start = some c → Accounts .ofMap m calls c) ∧
      count .ofMap true ⟨false, 0, 1⟩ (∅ : LSMIOStore.StoreMap) .start (.get [107] [1, 2, 3]) = some ⟨0, 3, 0, 1⟩ ∧
      count .ofMap true ⟨false, 0, 1⟩
        ((∅ : LSMIOStore.StoreMap).insert (LSMIOStore.metaPrefix ++ ascii "1::k") [7]) .start
        (.metaGetAll [] (ascii "1::")) = some ⟨0, 1, 0, 1⟩ ∧
      count .ofMap true ⟨true, 1, 2⟩
        ((∅ : LSMIOStore.StoreMap).insert (LSMIOStore.metaPrefix ++ ascii "1::k") [7]) .start
        (.metaGetAll [] (ascii "1::")) = some ⟨0, 19, 0, 1⟩ := by
  refine ⟨fun always => ?_, by decide +kernel, by decide +kernel, by decide +kernel⟩
  have accounts := always ⟨false, 0, 1⟩ [(∅, .get [107] [1, 2, 3])] ⟨0, 3, 0, 1⟩ (by decide +kernel)
  have total := accounts.readBytes
  revert total
  decide +kernel

end LSMIOManager

end LSMIO
