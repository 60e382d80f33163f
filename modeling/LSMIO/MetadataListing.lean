import LSMIO.Library.StringStream
import LSMIO.RemoteRead

namespace LSMIO

/-- One line of a serialized list, split at its first bar. Empty lines and lines without a bar give nothing. -/
def tupleOfLine (line : Bytes) : Option (Key × Value) :=
  if line.isEmpty then none
  else (line.findIdx? (· = 124)).map fun delimiterPos => (line.take delimiterPos, line.drop (delimiterPos + 1))

/-- The pairs of the lines are appended to `values`. -/
def vectorTupleDeserialize (serializedData : Bytes) (values : List (Key × Value)) : List (Key × Value) :=
  values ++ (Bytes.lines 10 serializedData).filterMap tupleOfLine

/-- No bar in the key and no newline in either part hides where a pair ends. -/
def Undelimited (tup : Key × Value) : Prop := 124 ∉ tup.1 ∧ 10 ∉ tup.1 ∧ 10 ∉ tup.2

instance : DecidablePred Undelimited := fun _ => inferInstanceAs (Decidable (_ ∧ _ ∧ _))

theorem tupleOfLine_eq_some_iff {text : Bytes} {tup : Key × Value} :
    tupleOfLine text = some tup ↔ text = tup.1 ++ 124 :: tup.2 ∧ 124 ∉ tup.1 := by
  unfold tupleOfLine
  constructor
  · intro parsed
    split at parsed
    next => cases parsed
    next =>
      obtain ⟨pos, found, rfl⟩ := Option.map_eq_some_iff.mp parsed
      obtain ⟨inside, bar, before⟩ := List.findIdx?_eq_some_iff_getElem.mp found
      have here : text[pos] = 124 := by simpa using bar
      refine ⟨?_, fun member => ?_⟩
      · rw [← here, ← List.drop_eq_getElem_cons inside, List.take_append_drop]
      · obtain ⟨i, low, same⟩ := List.mem_take_iff_getElem.mp member
        have earlier := before i (by omega)
        simp [same] at earlier
  · rintro ⟨rfl, fresh⟩
    have noBar : tup.1.findIdx? (· = 124) = none := by
      rw [List.findIdx?_eq_none_iff]
      intro b member
      simp only [decide_eq_false_iff_not]
      rintro rfl
      exact fresh member
    have found : (tup.1 ++ 124 :: tup.2).findIdx? (· = 124) = some tup.1.length := by
      simp [List.findIdx?_append, noBar, List.findIdx?_cons]
    rw [if_neg (by simp), found]
    simp

/-- What is read back from a line of a list has its own delimiters in no wrong place. -/
theorem undelimited_of_mem_lines {data line : Bytes} {tup : Key × Value} (member : line ∈ Bytes.lines 10 data)
    (parsed : tupleOfLine line = some tup) : Undelimited tup := by
  obtain ⟨rfl, fresh⟩ := tupleOfLine_eq_some_iff.mp parsed
  have noBreak := Bytes.fresh_of_mem_lines member
  simp only [List.mem_append, List.mem_cons, not_or] at noBreak
  exact ⟨fresh, noBreak.1, noBreak.2.2⟩

theorem vectorTupleDeserialize_serialize {values : List (Key × Value)} (clean : ∀ tup ∈ values, Undelimited tup)
    (before : List (Key × Value)) : vectorTupleDeserialize (vectorTupleSerialize values) before = before ++ values := by
  unfold vectorTupleDeserialize
  congr 1
  induction values with
  | nil => rfl
  | cons tup values ih =>
    obtain ⟨bar, keyBreak, valueBreak⟩ := clean tup (List.mem_cons_self ..)
    have rest := ih fun other member => clean other (List.mem_cons_of_mem _ member)
    have line : vectorTupleSerialize (tup :: values) = (tup.1 ++ 124 :: tup.2) ++
      10 :: vectorTupleSerialize values := by
      simp [vectorTupleSerialize, ascii]
    have fresh : 10 ∉ tup.1 ++ 124 :: tup.2 := by simp [keyBreak, valueBreak]
    rw [line, Bytes.lines_delimited fresh, List.filterMap_cons, tupleOfLine_eq_some_iff.mpr ⟨rfl, bar⟩, rest]

/-- The list comes back as it was exactly when no part of a pair has a delimiter that ends it. -/
theorem vectorTupleDeserialize_serialize_iff {values before : List (Key × Value)} :
    vectorTupleDeserialize (vectorTupleSerialize values) before = before ++ values ↔
      ∀ tup ∈ values, Undelimited tup := by
  refine ⟨fun same tup member => ?_, fun clean => vectorTupleDeserialize_serialize clean before⟩
  rw [← List.append_cancel_left same] at member
  obtain ⟨line, inLines, parsed⟩ := List.mem_filterMap.mp member
  exact undelimited_of_mem_lines inLines parsed

namespace LSMIOManager

section Operations

variable {σ : Type*} (store : LSMIOStore σ) (alwaysFlush : Bool)

/-- `metaGetAll`: the returned `bool` and `*values` after it. The request of a client rank does not carry `inFix`. -/
def metaGetAll (m : LSMIOManager) (s : σ) (values : List (Key × Value)) (inFix : Bytes) :
    Option (Bool × List (Key × Value)) :=
  if m.isOpenLocal then
    let (retValue, found) := store.metaGetAll s inFix
    some (retValue, values ++ found)
  else (m.exchange store alwaysFlush s .metaGetAll).map fun reply =>
    (reply.command == KV_CMD_RETURN.META_GET_ALL, vectorTupleDeserialize reply.value values)

/-- What the callback collects for the rank of a `META_GET_ALL`. -/
def listedFor (m : LSMIOManager) (s : σ) : List (Key × Value) :=
  (store.metaGetAll s (Decimal.digits m.aggRank ++ ascii "::")).2

variable {store} {alwaysFlush} {m : LSMIOManager}

theorem metaGetAll_local (opened : m.isOpenLocal = true) (s : σ) (values : List (Key × Value)) (inFix : Bytes) :
    m.metaGetAll store alwaysFlush s values inFix =
      some ((store.metaGetAll s inFix).1, values ++ (store.metaGetAll s inFix).2) := by
  rw [metaGetAll, if_pos opened]

theorem metaGetAll_remote (remote : m.isOpenRemote = true) (s : σ) (values : List (Key × Value)) (inFix : Bytes) :
    m.metaGetAll store alwaysFlush s values inFix =
      some (true, vectorTupleDeserialize (vectorTupleSerialize (m.listedFor store s)) values) := by
  rw [metaGetAll, isOpenLocal_of_remote remote, if_neg Bool.false_ne_true, exchange_eq (c := .metaGetAll) plain_dummy]
  rfl

/-- A list of metadata is read back as it was serialized, and a client rank
gets from the aggregator what its store returned, exactly where no pair has a delimiter that ends a part of it. -/
theorem listing_lossless_iff {σ : Type*} (store : LSMIOStore σ) (alwaysFlush : Bool) (m : LSMIOManager) (s : σ)
    (remote : m.isOpenRemote = true) (inFix : Bytes) (before values : List (Key × Value)) :
    (vectorTupleDeserialize (vectorTupleSerialize values) before = before ++ values ↔
        ∀ tup ∈ values, Undelimited tup) ∧
      ((∃ retValue, m.metaGetAll store alwaysFlush s before inFix = some (retValue, before ++ m.listedFor store s)) ↔
        ∀ tup ∈ m.listedFor store s, Undelimited tup) := by
  refine ⟨vectorTupleDeserialize_serialize_iff, ?_⟩
  rw [metaGetAll_remote remote, ← @vectorTupleDeserialize_serialize_iff _ before]
  simp

theorem listing_lossless_one :
    vectorTupleDeserialize (vectorTupleSerialize [(ascii "k", ascii "a|b"), ([], [])]) [] =
      [(ascii "k", ascii "a|b"), ([], [])] :=
  (listing_lossless_iff .ofMap true ⟨true, 1, 2⟩ ∅ rfl [] [] [(ascii "k", ascii "a|b"), ([], [])]).1.mpr (by decide)

/-- A pair under `a|b` comes back under `a`. -/
theorem not_listing_lossless : ¬ ∀ values before : List (Key × Value),
    vectorTupleDeserialize (vectorTupleSerialize values) before = before ++ values := by
  intro lossless
  have same := lossless [(ascii "a|b", ascii "v")] []
  revert same
  decide +kernel

end Operations

end LSMIOManager

end LSMIO
