import LSMIO.DataAndMetadata
import LSMIO.Deferring
import LSMIO.MetadataRanks
import LSMIO.Plugin

namespace LSMIO

open LSMIOStore (StoreMap metaPrefix)

/-- The calls of an engine that write. A `put` has the text that `WriteVariable` has made of the
values, `performPuts` the variables of the IO in the order in which it has them. -/
inductive EngineCall
  | put (rank : Nat) (name : Bytes) (text : Value) (isSync : Bool)
  | performPuts (rank : Nat) (vars : List VariableInfo)

/-- What a call writes: the data of a variable, or its record. -/
inductive EngineWrite
  | data (rank : Nat) (name : Bytes) (text : Value)
  | record (rank : Nat) (info : VariableInfo)

namespace LsmioPlugin

section Engines

variable {σ : Type*} (store : LSMIOStore σ) (opening closing : UInt8) (stdType : Bytes → Bool) (size : Nat)
    (alwaysFlush : Bool)

/-- Variables of a type outside the standard ones are passed over. -/
def writeVarsFromIO (rank : Nat) (s : σ) (vars : List VariableInfo) : Option σ :=
  vars.foldlM (fun s v =>
    if stdType v.type then
      ((LSMIOManager.ofRank size rank).metaPut store alwaysFlush s v.name
        (writeVariableInfo opening closing v) false).map Prod.snd
    else some s) s

/-- The store of the group after a call, when every message of it can be read. -/
def perform (s : σ) : EngineCall → Option σ
  | .put rank name text isSync =>
    ((LSMIOManager.ofRank size rank).put store alwaysFlush s name text isSync).map Prod.snd
  | .performPuts rank vars => writeVarsFromIO store opening closing stdType size alwaysFlush rank s vars

/-- The store that the engines of a group leave, in whatever order their calls come. -/
def engineHistory (initial : σ) (calls : List EngineCall) : Option σ :=
  calls.foldlM (perform store opening closing stdType size alwaysFlush) initial

section Deferring

variable {store} {shown settled : σ → StoreMap} (deferring : store.Deferring shown settled)

include deferring

theorem writeVarsFromIO_settled (rank : Nat) (s : σ) :
    Option.map settled ∘ writeVarsFromIO store opening closing stdType size alwaysFlush rank s =
      writeVarsFromIO .ofMap opening closing stdType size alwaysFlush rank (settled s) := by
  funext vars
  refine List.map_foldlM (fun s v => ?_) vars s
  split
  · rw [Option.map_map]
    exact LSMIOManager.metaPut_settled deferring alwaysFlush _ s v.name _ false
  · rfl

/-- The engines leave settled what they leave on a map. -/
theorem engineHistory_settled (initial : σ) (calls : List EngineCall) :
    (engineHistory store opening closing stdType size alwaysFlush initial calls).map settled =
      engineHistory .ofMap opening closing stdType size alwaysFlush (settled initial) calls := by
  refine List.map_foldlM (fun s c => ?_) calls initial
  cases c with
  | put rank name text isSync =>
    rw [perform, Option.map_map]
    exact LSMIOManager.put_settled deferring alwaysFlush _ s name text isSync
  | performPuts rank vars => exact congrFun (writeVarsFromIO_settled _ _ _ _ _ deferring rank s) vars

end Deferring

end Engines

end LsmioPlugin

namespace EngineCall

variable (stdType : Bytes → Bool)

def rank : EngineCall → Nat
  | .put rank _ _ _ | .performPuts rank _ => rank

def writes : EngineCall → List EngineWrite
  | .put rank name text _ => [.data rank name text]
  | .performPuts rank vars => (vars.filter fun v => stdType v.type).map (.record rank)

end EngineCall

namespace EngineWrite

def text? (rank : Nat) : EngineWrite → Option (Bytes × Value)
  | .data q name text => if q = rank then some (name, text) else none
  | .record _ _ => none

def record? (rank : Nat) : EngineWrite → Option (Bytes × VariableInfo)
  | .record q v => if q = rank then some (v.name, v) else none
  | .data _ _ _ => none

/-- The name under which the group's store has it. -/
def name (size : Nat) : EngineWrite → Key
  | .data rank name _ => (LSMIOManager.ofRank size rank).aggregator.rankedKey rank name
  | .record rank v => metaPrefix ++ (LSMIOManager.ofRank size rank).aggregator.rankedKey rank v.name

def value (opening closing : UInt8) : EngineWrite → Value
  | .data _ _ text => text
  | .record _ v => LsmioPlugin.writeVariableInfo opening closing v

def rank : EngineWrite → Nat
  | .data rank _ _ | .record rank _ => rank

end EngineWrite

/-- The texts a rank has put, and the records it has written, oldest first. -/
def engineTexts (stdType : Bytes → Bool) (rank : Nat) (calls : List EngineCall) : List (Bytes × Value) :=
  (calls.flatMap (EngineCall.writes stdType)).filterMap (EngineWrite.text? rank)

def engineRecords (stdType : Bytes → Bool) (rank : Nat) (calls : List EngineCall) : List (Bytes × VariableInfo) :=
  (calls.flatMap (EngineCall.writes stdType)).filterMap (EngineWrite.record? rank)

/-- A name without the bytes that end a part of a message, of a list or of a record. -/
def CleanName (name : Bytes) : Prop := ∀ b ∈ 0 :: delimiters, b ∉ name

instance : DecidablePred CleanName := fun _ => inferInstanceAs (Decidable (∀ _ ∈ _, _))

/-- A variable whose record can be read back. -/
structure VariableInfo.Clean (v : VariableInfo) : Prop where
  name : CleanName v.name
  type : 59 ∉ v.type ∧ 10 ∉ v.type
  dims : ∀ d ∈ v.shape ++ v.start ++ v.count, d.toNat < 2 ^ 31

instance : DecidablePred VariableInfo.Clean := fun v =>
  decidable_of_iff (CleanName v.name ∧ (59 ∉ v.type ∧ 10 ∉ v.type) ∧
    ∀ d ∈ v.shape ++ v.start ++ v.count, d.toNat < 2 ^ 31)
    ⟨fun held => ⟨held.1, held.2.1, held.2.2⟩, fun clean => ⟨clean.name, clean.type, clean.dims⟩⟩

/-- A call of a rank of the group whose names are clean, and whose data cannot be taken for metadata. -/
def EngineCall.Clean (size : Nat) (c : EngineCall) : Prop := c.rank < size ∧ match c with
  | .put rank name _ _ => CleanName name ∧ (LSMIOManager.ofRank size rank).NamesData name
  | .performPuts _ vars => ∀ v ∈ vars, v.Clean

instance (size : Nat) : DecidablePred (EngineCall.Clean size)
  | .put _ _ _ _ | .performPuts _ _ => inferInstanceAs (Decidable (_ ∧ _))

/-- The same of what is written. -/
def EngineWrite.Clean (size : Nat) (w : EngineWrite) : Prop := w.rank < size ∧ match w with
  | .data rank name _ => CleanName name ∧ (LSMIOManager.ofRank size rank).NamesData name
  | .record _ v => v.Clean

variable {opening closing : UInt8} {stdType : Bytes → Bool} {size rank : Nat} {alwaysFlush : Bool}
    {calls : List EngineCall}

theorem EngineCall.Clean.writes {c : EngineCall} (clean : c.Clean size) : ∀ w ∈ c.writes stdType, w.Clean size := by
  intro w member
  cases c with
  | put q name text isSync =>
    rw [EngineCall.writes, List.mem_singleton] at member
    subst member
    exact clean
  | performPuts q vars =>
    obtain ⟨v, inVariables, rfl⟩ := List.mem_map.mp member
    exact ⟨clean.1, clean.2 v (List.mem_filter.mp inVariables).1⟩

theorem CleanName.plain {name : Bytes} (clean : CleanName name) : Plain name :=
  ⟨clean COL_SEPARATOR (by decide), clean 0 (by decide)⟩

namespace LsmioPlugin

/-- A put of a clean name reaches the store of the group, from whatever rank. -/
theorem put_eq {name : Bytes} (plain : Plain name) (s : StoreMap) (text : Value) (flush : Bool) :
    ((LSMIOManager.ofRank size rank).put .ofMap alwaysFlush s name text flush).map Prod.snd =
      some (s.insert ((LSMIOManager.ofRank size rank).aggregator.rankedKey rank name) text) := by
  cases opened : (LSMIOManager.ofRank size rank).isOpenLocal with
  | true =>
    rw [LSMIOManager.put, if_pos opened, LSMIOManager.rankedKey_of_local opened]
    rfl
  | false =>
    rw [LSMIOManager.put, if_neg (by simp [opened]), LSMIOManager.sendWrite,
      Message.received_serialize (m := (Command.put name text).message) (Command.plain_message_command _) plain]
    rfl

theorem metaPut_eq {name : Bytes} (plain : Plain name) (s : StoreMap) (value : Value) (flush : Bool) :
    ((LSMIOManager.ofRank size rank).metaPut .ofMap alwaysFlush s name value flush).map Prod.snd =
      some (s.insert (metaPrefix ++ (LSMIOManager.ofRank size rank).aggregator.rankedKey rank name) value) := by
  cases opened : (LSMIOManager.ofRank size rank).isOpenLocal with
  | true =>
    rw [LSMIOManager.metaPut, if_pos opened, LSMIOManager.rankedKey_of_local opened]
    rfl
  | false =>
    rw [LSMIOManager.metaPut, if_neg (by simp [opened]), LSMIOManager.sendWrite,
      Message.received_serialize (m := (Command.metaPut name value).message) (Command.plain_message_command _) plain]
    rfl

/-- The store with a write made in it. -/
def written (opening closing : UInt8) (size : Nat) (s : StoreMap) (w : EngineWrite) : StoreMap :=
  s.insert (w.name size) (w.value opening closing)

theorem writeVarsFromIO_eq {vars : List VariableInfo} (clean : ∀ v ∈ vars, v.Clean) (s : StoreMap) :
    writeVarsFromIO .ofMap opening closing stdType size alwaysFlush rank s vars =
      some (((vars.filter fun v => stdType v.type).map (EngineWrite.record rank)).foldl
        (written opening closing size) s) := by
  unfold writeVarsFromIO
  induction vars generalizing s with
  | nil => rfl
  | cons v vars ih =>
    have rest := fun s => ih (fun other member => clean other (List.mem_cons_of_mem _ member)) s
    rw [List.foldlM_cons, List.filter_cons]
    cases standard : stdType v.type with
    | true =>
      rw [if_pos rfl, if_pos rfl, metaPut_eq (clean v (List.mem_cons_self ..)).name.plain]
      exact rest _
    | false =>
      rw [if_neg Bool.false_ne_true, if_neg Bool.false_ne_true]
      exact rest s

theorem perform_eq {c : EngineCall} (clean : c.Clean size) (s : StoreMap) :
    perform .ofMap opening closing stdType size alwaysFlush s c =
      some ((c.writes stdType).foldl (written opening closing size) s) := by
  cases c with
  | put q name text isSync => exact put_eq clean.2.1.plain s text isSync
  | performPuts q vars => exact writeVarsFromIO_eq clean.2 s

/-- The store after the writes of a history. -/
def engineStore (opening closing : UInt8) (stdType : Bytes → Bool) (size : Nat) (calls : List EngineCall) : StoreMap :=
  (calls.flatMap (EngineCall.writes stdType)).foldl (written opening closing size) ∅

theorem engineHistory_eq (clean : ∀ c ∈ calls, c.Clean size) :
    engineHistory .ofMap opening closing stdType size alwaysFlush ∅ calls = some
      (engineStore opening closing stdType size calls) := by
  unfold engineHistory engineStore
  induction calls using List.reverseRecOn with
  | nil => rfl
  | append_singleton calls c ih =>
    rw [List.foldlM_append, ih fun other member => clean other (List.mem_append_left _ member), Option.bind_eq_bind,
      Option.bind_some, List.foldlM_cons, perform_eq (clean c (by simp)), List.flatMap_append, List.foldl_append]
    simp

theorem getElem?_engineStore (key : Key) : (engineStore opening closing stdType size calls)[key]? =
    lastValue
      ((calls.flatMap (EngineCall.writes stdType)).map fun w => (w.name size, w.value opening closing)) key := by
  unfold engineStore
  generalize calls.flatMap (EngineCall.writes stdType) = writes
  induction writes using List.reverseRecOn with
  | nil => simp
  | append_singleton writes w ih =>
    rw [List.foldl_append, List.map_append, List.map_singleton, lastValue_concat, ← ih, List.foldl_cons, List.foldl_nil,
      written, OrderedMap.getElem?_insert]
    by_cases here : w.name size = key
    · rw [if_pos here, if_pos here.symm]
    · rw [if_neg here, if_neg (Ne.symm here)]

theorem clean_writes (clean : ∀ c ∈ calls, c.Clean size) :
    ∀ w ∈ calls.flatMap (EngineCall.writes stdType), w.Clean size := by
  intro w member
  obtain ⟨c, called, here⟩ := List.mem_flatMap.mp member
  exact (clean c called).writes w here

/-- A write under the ranked name of a rank is one of the rank itself, under that name. -/
theorem rankedKey_picks {β : Type*} {q : Nat} (other name : Bytes) (insideQ : q < size) (inside : rank < size) (d : β) :
    ((LSMIOManager.ofRank size q).aggregator.rankedKey q other =
          (LSMIOManager.ofRank size rank).aggregator.rankedKey rank name ∧
        (if q = rank then some (other, d) else none) = some (name, d)) ∨
      (LSMIOManager.ofRank size q).aggregator.rankedKey q other ≠
        (LSMIOManager.ofRank size rank).aggregator.rankedKey rank name ∧
        ∀ d', (if q = rank then some (other, d) else none) ≠ some (name, d') := by
  rw [ne_eq, rankedKey_inj insideQ inside]
  by_cases mine : q = rank
  · by_cases here : other = name
    · simp [mine, here]
    · simp [mine, here]
  · simp [mine]

/-- Under a rank's name the store has the text that the rank has put there last. -/
theorem getElem?_data (inside : rank < size) (clean : ∀ c ∈ calls, c.Clean size) {name : Bytes}
    (named : (LSMIOManager.ofRank size rank).NamesData name) :
    (engineStore opening closing stdType size calls)[(LSMIOManager.ofRank size rank).aggregator.rankedKey rank name]? =
      lastValue (engineTexts stdType rank calls) name := by
  have renamed : lastValue ((calls.flatMap (EngineCall.writes stdType)).map fun w =>
    (w.name size, w.value opening closing))
      ((LSMIOManager.ofRank size rank).aggregator.rankedKey rank name) =
        (lastValue (engineTexts stdType rank calls) name).map id := by
    refine lastValue_filterMap fun w member => ?_
    have cleanWrite := clean_writes clean w member
    cases w with
    | data q other text =>
      rcases rankedKey_picks other name cleanWrite.1 inside text with ⟨same, picked⟩ | different
      · exact .inl ⟨same, text, picked, rfl⟩
      · exact .inr different
    | record q v =>
      refine .inr ⟨fun same => ?_, fun d => by simp [EngineWrite.text?]⟩
      exact LSMIOManager.not_metaPrefix_rankedKey named rank (same ▸ List.prefix_append _ _)
  rw [getElem?_engineStore, renamed, Option.map_id, id]

/-- Under the metadata name of a rank's variable the store has the record that the rank has written last. -/
theorem getElem?_record (inside : rank < size) (clean : ∀ c ∈ calls, c.Clean size) (name : Bytes) :
    (engineStore opening closing stdType size calls)[metaPrefix ++
      (LSMIOManager.ofRank size rank).aggregator.rankedKey rank name]? =
      (lastValue (engineRecords stdType rank calls) name).map (writeVariableInfo opening closing) := by
  rw [getElem?_engineStore, engineRecords]
  refine lastValue_filterMap fun w member => ?_
  have cleanWrite := clean_writes clean w member
  cases w with
  | data q other text =>
    refine .inr ⟨fun same => ?_, fun d => by simp [EngineWrite.record?]⟩
    have metadata : metaPrefix <+: (LSMIOManager.ofRank size q).aggregator.rankedKey q other := ⟨_, same.symm⟩
    exact LSMIOManager.not_metaPrefix_rankedKey cleanWrite.2.2 q metadata
  | record q v =>
    rcases rankedKey_picks v.name name cleanWrite.1 inside v with ⟨same, picked⟩ | ⟨different, others⟩
    · exact .inl ⟨congrArg (metaPrefix ++ ·) same, v, picked, rfl⟩
    · exact .inr ⟨fun same => different (List.append_cancel_left same), others⟩

end LsmioPlugin

end LSMIO
