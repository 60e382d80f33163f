import LSMIO.PluginWrites
import LSMIO.VariableInfo

namespace LSMIO

open LSMIOStore (StoreMap metaPrefix)

/-- `adios2::core::IO` as the engine uses it. `InquireVariable` returns a pointer or null, and `DefineVariable` may
throw. -/
structure AdiosIO (ι : Type) where
  getVariables : ι → List VariableInfo
  inquireVariable : ι → (type name : Bytes) → Bool
  defineVariable : ι → VariableInfo → Option ι

namespace AdiosIO

variable {ι : Type} (A : AdiosIO ι)

/-- What the library documents: a variable is found under its type and its name, a name is defined only once, and a
definition that it accepts adds the variable. -/
structure Documented (accepts : VariableInfo → Prop) : Prop where
  inquired : ∀ io type name,
    A.inquireVariable io type name = true ↔ ∃ v ∈ A.getVariables io, v.type = type ∧ v.name = name
  refused : ∀ io v, accepts v → (A.defineVariable io v = none ↔ ∃ u ∈ A.getVariables io, u.name = v.name)
  defined : ∀ io v io', A.defineVariable io v = some io' → ∀ u, u ∈ A.getVariables io' ↔ u ∈ A.getVariables io ∨ u = v

/-- A variable that is there under its type is left as it is. -/
def addVariable (io : ι) (v : VariableInfo) : Option ι :=
  if A.inquireVariable io v.type v.name then some io else A.defineVariable io v

/-- The IO has of each name the first variable in the list. -/
def Firsts (io : ι) (infos : List VariableInfo) : Prop :=
  ∀ u, u ∈ A.getVariables io ↔ infos.find? (fun v => decide (v.name = u.name)) = some u

/-- The variables of one name have one type. -/
def TypesAgree (infos : List VariableInfo) : Prop := ∀ u ∈ infos, ∀ v ∈ infos, u.name = v.name → u.type = v.type

variable {A} {accepts : VariableInfo → Prop} {io io' : ι} {infos : List VariableInfo} {v : VariableInfo}

theorem Firsts.named (firsts : A.Firsts io infos) (name : Bytes) :
    (∃ w ∈ A.getVariables io, w.name = name) ↔ ∃ w ∈ infos, w.name = name := by
  constructor
  · rintro ⟨w, there, rfl⟩
    exact ⟨w, List.mem_of_find?_eq_some ((firsts w).mp there), rfl⟩
  · rintro ⟨w, member, rfl⟩
    have found : (infos.find? fun v => decide (v.name = w.name)).isSome := List.find?_isSome.mpr ⟨w, member, by simp⟩
    obtain ⟨u, first⟩ := Option.isSome_iff_exists.mp found
    have same : u.name = w.name := by simpa using List.find?_some first
    exact ⟨u, (firsts u).mpr (by rw [same, first]), same⟩

theorem Firsts.add (documented : A.Documented accepts) (firsts : A.Firsts io infos) (agree : TypesAgree infos)
    (accepted : accepts v) : (∀ io', A.addVariable io v = some io' → A.Firsts io' (infos ++ [v])) ∧
      ((A.addVariable io v).isSome ↔ ∀ u ∈ infos, u.name = v.name → u.type = v.type) := by
  have later : ∀ u : VariableInfo, (u ≠ v ∨ ∃ w ∈ infos, w.name = u.name) →
      ((infos ++ [v]).find? (fun w => decide (w.name = u.name)) = some u ↔
        infos.find? (fun w => decide (w.name = u.name)) = some u) := by
    intro u other
    rw [List.find?_append]
    cases first : infos.find? (fun w => decide (w.name = u.name)) with
    | some w => rfl
    | none =>
      have absent : ¬ ∃ w ∈ infos, w.name = u.name := by
        rintro ⟨w, member, same⟩
        exact List.find?_eq_none.mp first w member (decide_eq_true same)
      refine iff_of_false (fun found => ?_) (by simp)
      have isLast := List.mem_of_find?_eq_some (show [v].find? (fun w => decide (w.name = u.name)) = some u from found)
      exact other.elim (fun different => different (List.mem_singleton.mp isLast)) absent
  unfold addVariable
  by_cases found : A.inquireVariable io v.type v.name = true
  · -- The name is there, with the type of the variable.
    obtain ⟨w, there, sameType, sameName⟩ := (documented.inquired _ _ _).mp found
    have member := List.mem_of_find?_eq_some ((firsts w).mp there)
    rw [if_pos found]
    refine ⟨fun io' same => ?_, iff_of_true rfl fun u inInfos named => ?_⟩
    · cases same
      intro u
      rw [firsts u, later u]
      by_cases here : u = v
      · exact .inr ⟨w, member, by rw [here, sameName]⟩
      · exact .inl here
    · rw [agree u inInfos w member (named.trans sameName.symm), sameType]
  · rw [if_neg found]
    by_cases clash : ∃ u ∈ infos, u.name = v.name
    · -- The name is there with another type.
      have refused := (documented.refused io v accepted).mpr ((firsts.named v.name).mpr clash)
      rw [refused]
      refine ⟨fun io' added => (by cases added), iff_of_false (by simp) fun all => found ?_⟩
      obtain ⟨u, there, named⟩ := (firsts.named v.name).mpr clash
      exact (documented.inquired _ _ _).mpr
        ⟨u, there, all u (List.mem_of_find?_eq_some ((firsts u).mp there)) named, named⟩
    · have fresh : A.defineVariable io v ≠ none := fun refused =>
        clash ((firsts.named v.name).mp ((documented.refused io v accepted).mp refused))
      refine ⟨fun io' added u => ?_, iff_of_true (Option.ne_none_iff_isSome.mp fresh) fun u member named =>
        absurd ⟨u, member, named⟩ clash⟩
      rw [documented.defined _ _ _ added, firsts u]
      by_cases here : u = v
      · subst here
        have absent : infos.find? (fun w => decide (w.name = u.name)) = none :=
          List.find?_eq_none.mpr fun w member same => clash ⟨w, member, of_decide_eq_true same⟩
        simp [List.find?_append, absent]
      · rw [later u (.inl here), or_iff_left here]

/-- The additions go through when the variables of a name have one type, and of each name the first is kept. -/
theorem foldlM_addVariable (documented : A.Documented accepts) (empty : A.getVariables io = [])
    (accepted : ∀ v ∈ infos, accepts v) : (∀ io', infos.foldlM A.addVariable io = some io' → A.Firsts io' infos) ∧
      ((infos.foldlM A.addVariable io).isSome ↔ TypesAgree infos) := by
  induction infos using List.reverseRecOn with
  | nil =>
    refine ⟨fun io' same u => ?_, by simp [TypesAgree]⟩
    cases same
    simp [empty]
  | append_singleton infos v ih =>
    obtain ⟨firsts, agrees⟩ := ih fun u member => accepted u (List.mem_append_left _ member)
    have split : TypesAgree (infos ++ [v]) ↔ TypesAgree infos ∧ ∀ u ∈ infos, u.name = v.name → u.type = v.type := by
      constructor
      · intro all
        refine ⟨fun u member w member' => ?_, fun u member => all u (List.mem_append_left _ member) v (by simp)⟩
        exact all u (List.mem_append_left _ member) w (List.mem_append_left _ member')
      · rintro ⟨front, last⟩ u member w member'
        rcases List.mem_append.mp member with inFront | isLast
        · rcases List.mem_append.mp member' with inFront' | isLast'
          · exact front u inFront w inFront'
          · cases List.mem_singleton.mp isLast'
            exact last u inFront
        · cases List.mem_singleton.mp isLast
          rcases List.mem_append.mp member' with inFront' | isLast'
          · exact fun same => (last w inFront' same.symm).symm
          · cases List.mem_singleton.mp isLast'
            exact fun _ => rfl
    rw [List.foldlM_append, split, ← agrees]
    cases before : infos.foldlM A.addVariable io with
    | none => exact ⟨fun io' added => (by cases added), by simp⟩
    | some middle =>
      have added := (firsts middle before).add documented (agrees.mp (by simp [before])) (accepted v (by simp))
      simpa using added

end AdiosIO

namespace LsmioPlugin

section Reading

variable {ι : Type} (stdType : Bytes → Bool) (alwaysFlush : Bool) (A : AdiosIO ι)

/-- The pass of `Init` over one record of the metadata. A type that is no standard one is passed over. -/
def initRecord (io : ι) (value : Value) : Option ι := do
  let info ← readVariableInfo value
  if stdType info.type then A.addVariable io info else some io

/-- `Init` of an engine opened for reading, over the store of the group. -/
def init (m : LSMIOManager) (s : StoreMap) (io : ι) : Option ι := do
  let (_, values) ← m.metaGetAll .ofMap alwaysFlush s [] []
  values.foldlM (fun io entry => initRecord stdType A io entry.2) io

end Reading

/-- The ranks whose records a rank finds: the aggregator finds those of all ranks, a client its own. -/
def Finds (rank q : Nat) : Prop := rank = 0 ∨ q = rank

variable {opening closing : UInt8} {stdType : Bytes → Bool} {size rank : Nat} {alwaysFlush : Bool}
    {calls : List EngineCall}

/-- A record of a history is that of a clean variable of a standard type, under its own name. -/
theorem clean_record (clean : ∀ c ∈ calls, c.Clean size) {name : Bytes} {v : VariableInfo}
    (last : lastValue (engineRecords stdType rank calls) name = some v) :
    v.name = name ∧ v.Clean ∧ stdType v.type = true := by
  obtain ⟨w, member, picked⟩ := List.mem_filterMap.mp (mem_of_lastValue last)
  have cleanWrite := clean_writes clean w member
  cases w with
  | data q other text => cases picked
  | record q info =>
    simp only [EngineWrite.record?] at picked
    split at picked
    next =>
      cases picked
      obtain ⟨c, -, here⟩ := List.mem_flatMap.mp member
      cases c with
      | put r other text isSync => simp [EngineCall.writes] at here
      | performPuts r vars =>
        obtain ⟨other, inVars, same⟩ := List.mem_map.mp here
        cases same
        exact ⟨rfl, cleanWrite.2, (List.mem_filter.mp inVars).2⟩
    next => cases picked

/-- A text of a history was put under a clean name that is no metadata. -/
theorem clean_text (clean : ∀ c ∈ calls, c.Clean size) {name : Bytes} {text : Value}
    (last : lastValue (engineTexts stdType rank calls) name = some text) :
    CleanName name ∧ (LSMIOManager.ofRank size rank).NamesData name := by
  obtain ⟨w, member, picked⟩ := List.mem_filterMap.mp (mem_of_lastValue last)
  have cleanWrite := clean_writes clean w member
  cases w with
  | data q other content =>
    simp only [EngineWrite.text?] at picked
    split at picked
    next mine =>
      cases picked
      subst mine
      exact cleanWrite.2
    next => cases picked
  | record q info => cases picked

/-- What the scan for a rank lists of the store. -/
def listing (opening closing : UInt8) (stdType : Bytes → Bool) (size rank : Nat) (calls : List EngineCall) :
    List (Key × Value) :=
  (LSMIOStore.ofMap.metaGetAll (engineStore opening closing stdType size calls)
    (if rank = 0 then [] else Decimal.digits rank ++ ascii "::")).2

theorem listing_ascending :
    (listing opening closing stdType size rank calls).Pairwise fun a b => compare a.1 b.1 = .lt :=
  Std.ExtTreeMap.ordered_keys_toList.filter _

/-- The listing for a rank has the last records of the ranks that it finds. -/
theorem mem_listing_iff (inside : rank < size) (clean : ∀ c ∈ calls, c.Clean size) {entry : Key × Value} :
    entry ∈ listing opening closing stdType size rank calls ↔ ∃ q < size, Finds rank q ∧ ∃ name v,
      lastValue (engineRecords stdType q calls) name = some v ∧
        entry = (metaPrefix ++ (LSMIOManager.ofRank size q).aggregator.rankedKey q name,
          writeVariableInfo opening closing v) := by
  have scanned : ∀ q < size, ∀ name, (if rank = 0 then [] else Decimal.digits rank ++ ascii "::") <+:
      (LSMIOManager.ofRank size q).aggregator.rankedKey q name ↔ Finds rank q := by
    intro q insideQ name
    by_cases first : rank = 0
    · simp [first, Finds]
    · rw [if_neg first, rankPrefix_iff (by omega), Finds, or_iff_right first]
  obtain ⟨key, value⟩ := entry
  have listed : (key, value) ∈ listing opening closing stdType size rank calls ↔
      (engineStore opening closing stdType size calls)[key]? = some value ∧
        metaPrefix ++ (if rank = 0 then [] else Decimal.digits rank ++ ascii "::") <+: key := by
    rw [listing, LSMIOStore.metaGetAll, LSMIOStore.ofMap, List.mem_filter,
      Std.ExtTreeMap.mem_toList_iff_getElem?_eq_some,
      decide_eq_true_eq]
  rw [listed]
  constructor
  · rintro ⟨stored, starts⟩
    have written := stored
    rw [getElem?_engineStore] at written
    obtain ⟨w, member, same⟩ := List.mem_map.mp (mem_of_lastValue written)
    have cleanWrite := clean_writes clean w member
    cases w with
    | data q name text =>
      have named : (LSMIOManager.ofRank size q).aggregator.rankedKey q name = key := congrArg Prod.fst same
      refine absurd ?_ (LSMIOManager.not_metaPrefix_rankedKey cleanWrite.2.2 q)
      rw [named]
      exact (List.prefix_append _ _).trans starts
    | record q v =>
      have named : metaPrefix ++ (LSMIOManager.ofRank size q).aggregator.rankedKey q v.name = key :=
        congrArg Prod.fst same
      subst named
      have insideQ : q < size := cleanWrite.1
      rw [List.prefix_append_right_inj, scanned q insideQ] at starts
      rw [getElem?_record insideQ clean] at stored
      obtain ⟨info, last, rfl⟩ := Option.map_eq_some_iff.mp stored
      exact ⟨q, insideQ, starts, v.name, info, last, rfl⟩
  · rintro ⟨q, insideQ, finds, name, v, last, same⟩
    cases same
    rw [getElem?_record insideQ clean, last, List.prefix_append_right_inj, scanned q insideQ]
    exact ⟨rfl, finds⟩

/-- Of the records of one name that a rank finds, its own is listed first. -/
theorem own_least (insideQ : q < size) (finds : Finds rank q) (name : Bytes) :
    compare (metaPrefix ++ (LSMIOManager.ofRank size rank).aggregator.rankedKey rank name)
      (metaPrefix ++ (LSMIOManager.ofRank size q).aggregator.rankedKey q name) ≠ .gt := by
  by_cases own : q = rank
  · subst own
    rw [Std.ReflOrd.compare_self]
    decide
  · obtain rfl : rank = 0 := finds.resolve_right own
    have serves : ∀ r, (LSMIOManager.ofRank size r).aggregator.isServeLocal = true := by
      intro r
      have served : 1 < size := by omega
      simp [LSMIOManager.isServeLocal_aggregator, LSMIOManager.ofRank, served]
    obtain ⟨b, rest, starts, above⟩ := Decimal.digits_starts q own
    have zero : Decimal.digits 0 = [48] := by decide
    rw [LSMIOManager.rankedKey, LSMIOManager.rankedKey, if_pos (serves 0), if_pos (serves q), starts, zero]
    have less : compare (48 : UInt8) b = .lt := by
      have below : (48 : UInt8) < b := UInt8.lt_iff_toNat_lt.mpr above
      simp [compare, compareOfLessAndEq, below]
    have shared : ∀ front a c : Bytes, compare (front ++ a) (front ++ c) = compare a c := by
      intro front a c
      induction front with
      | nil => rfl
      | cons d front ih =>
        rw [List.cons_append, List.cons_append, List.compare_cons_cons, Std.ReflOrd.compare_self, ih]; rfl
    rw [shared, List.append_assoc, List.append_assoc, List.cons_append, List.cons_append, List.compare_cons_cons, less]
    simp

/-- The variables that a rank reads from its listing, in order. -/
def catalog (opening closing : UInt8) (stdType : Bytes → Bool) (size rank : Nat) (calls : List EngineCall) :
    List VariableInfo :=
  (listing opening closing stdType size rank calls).filterMap fun entry => readVariableInfo entry.2

theorem foldlM_initRecord {ι : Type} {A : AdiosIO ι} {entries : List (Key × Value)}
    (readable : ∀ entry ∈ entries, ∃ v, readVariableInfo entry.2 = some v ∧ stdType v.type = true) (io : ι) :
    entries.foldlM (fun io entry => initRecord stdType A io entry.2) io =
      (entries.filterMap fun entry => readVariableInfo entry.2).foldlM A.addVariable io := by
  induction entries generalizing io with
  | nil => rfl
  | cons entry entries ih =>
    obtain ⟨v, read, standard⟩ := readable entry (List.mem_cons_self ..)
    have here : initRecord stdType A io entry.2 = A.addVariable io v := by
      rw [initRecord, read, Option.bind_eq_bind, Option.bind_some, if_pos standard]
    rw [List.foldlM_cons, here, List.filterMap_cons, read, List.foldlM_cons]
    exact congrArg _ (funext fun io => ih (fun other member => readable other (List.mem_cons_of_mem _ member)) io)

section Catalog

variable (clean : ∀ c ∈ calls, c.Clean size) (outer : opening ≠ 59 ∧ opening ≠ 10)
    (outer' : closing ≠ 59 ∧ closing ≠ 10)

include clean outer outer'

theorem read_record {name : Bytes} {v : VariableInfo}
    (last : lastValue (engineRecords stdType rank calls) name = some v) :
    readVariableInfo (writeVariableInfo opening closing v) = some v := by
  obtain ⟨-, cleanInfo, -⟩ := clean_record clean last
  rw [readVariableInfo_writeVariableInfo outer outer' (cleanInfo.name 59 (by decide)) cleanInfo.type.1,
    if_pos cleanInfo.dims]

variable (inside : rank < size)

include inside

/-- What a rank gets from `metaGetAll`: a client's list comes back from the aggregator as it was. -/
theorem metaGetAll_engineStore (alwaysFlush : Bool) : ∃ retValue,
    (LSMIOManager.ofRank size rank).metaGetAll .ofMap alwaysFlush (engineStore opening closing stdType size calls)
        [] [] =
      some (retValue, listing opening closing stdType size rank calls) := by
  by_cases first : rank = 0
  · refine ⟨true, ?_⟩
    rw [LSMIOManager.metaGetAll_local (by simp [ofRank_isOpenLocal, first]), listing, if_pos first]
    rfl
  · have remote : (LSMIOManager.ofRank size rank).isOpenRemote = true :=
      LSMIOManager.isOpenRemote_of_not_local (by simp [ofRank_isOpenLocal, first])
    have undelimited : ∀ tup ∈ listing opening closing stdType size rank calls, Undelimited tup := by
      intro tup member
      obtain ⟨q, insideQ, -, name, v, last, rfl⟩ := (mem_listing_iff inside clean).mp member
      obtain ⟨rfl, cleanInfo, -⟩ := clean_record clean last
      have absent (b : UInt8) (delimiter : b ∈ delimiters) :
        b ∉ v.name := cleanInfo.name b (List.mem_cons_of_mem _ delimiter)
      have key (b : UInt8) (other : Decimal.isDigit b = false) (fixed : b ∉ metaPrefix ++ ascii "::")
        (delimiter : b ∈ delimiters) :
          b ∉ (⟨q, v.name, [], false⟩ : MetaPut).name size := MetaPut.fresh_name other fixed (absent b delimiter)
      refine ⟨key 124 (by decide) (by decide +kernel) (by decide),
        key 10 (by decide) (by decide +kernel) (by decide), ?_⟩
      have extents : ∀ dims, 10 ∉ printDims opening closing dims :=
        mem_printDims (by decide) (by decide) ⟨outer.2.symm, outer'.2.symm⟩
      have separator : 10 ∉ ascii ";" := by decide
      simp [writeVariableInfo, absent 10 (by decide), separator, cleanInfo.type.2, extents]
    refine ⟨true, ?_⟩
    have delivered := vectorTupleDeserialize_serialize undelimited []
    rw [LSMIOManager.metaGetAll_remote remote]
    rw [List.nil_append] at delivered
    refine congrArg (fun found => some (true, found)) (Eq.trans ?_ delivered)
    rw [listing, if_neg first]
    rfl

theorem read_listing {entry : Key × Value} (member : entry ∈ listing opening closing stdType size rank calls) :
    ∃ q < size, Finds rank q ∧ ∃ v, lastValue (engineRecords stdType q calls) v.name = some v ∧
      entry.1 = metaPrefix ++ (LSMIOManager.ofRank size q).aggregator.rankedKey q v.name ∧
      readVariableInfo entry.2 = some v ∧ stdType v.type = true := by
  obtain ⟨q, insideQ, finds, name, v, last, rfl⟩ := (mem_listing_iff inside clean).mp member
  obtain ⟨rfl, -, standard⟩ := clean_record clean last
  exact ⟨q, insideQ, finds, v, last, rfl, read_record clean outer outer' last, standard⟩

/-- The variables that a rank reads are the last of the ranks it finds. -/
theorem mem_catalog_iff {v : VariableInfo} : v ∈ catalog opening closing stdType size rank calls ↔
    ∃ q < size, Finds rank q ∧ lastValue (engineRecords stdType q calls) v.name = some v := by
  rw [catalog, List.mem_filterMap]
  constructor
  · rintro ⟨entry, member, read⟩
    obtain ⟨q, insideQ, finds, info, last, -, same, -⟩ := read_listing clean outer outer' inside member
    cases same.symm.trans read
    exact ⟨q, insideQ, finds, last⟩
  · rintro ⟨q, insideQ, finds, last⟩
    exact ⟨_, (mem_listing_iff inside clean).mpr ⟨q, insideQ, finds, v.name, v, last, rfl⟩,
      read_record clean outer outer' last⟩

/-- A rank's own record of a name is the first one it reads. -/
theorem find?_catalog {name : Bytes} {v : VariableInfo}
    (last : lastValue (engineRecords stdType rank calls) name = some v) :
    (catalog opening closing stdType size rank calls).find? (fun u => decide (u.name = name)) = some v := by
  obtain ⟨rfl, -⟩ := clean_record clean last
  have read := read_record clean outer outer' last
  have first : (listing opening closing stdType size rank calls).find?
      (fun entry => (readVariableInfo entry.2).any fun u => decide (u.name = v.name)) =
      some (metaPrefix ++ (LSMIOManager.ofRank size rank).aggregator.rankedKey rank v.name,
        writeVariableInfo opening closing v) := by
    refine OrderedMap.find?_of_least listing_ascending ?_ (by simp [read]) fun other member named => ?_
    · exact (mem_listing_iff inside clean).mpr ⟨rank, inside, .inr rfl, v.name, v, last, rfl⟩
    · obtain ⟨q, insideQ, finds, u, -, key, readU, -⟩ := read_listing clean outer outer' inside member
      rw [readU, Option.any_some, decide_eq_true_eq] at named
      rw [key, named]
      exact own_least insideQ finds v.name
  rw [catalog, List.find?_filterMap, first, Option.bind_some, read]

theorem init_eq {ι : Type} (A : AdiosIO ι) (alwaysFlush : Bool) (io : ι) :
    init stdType alwaysFlush A (LSMIOManager.ofRank size rank) (engineStore opening closing stdType size calls) io =
      (catalog opening closing stdType size rank calls).foldlM A.addVariable io := by
  obtain ⟨retValue, answer⟩ : ∃ retValue, (LSMIOManager.ofRank size rank).metaGetAll .ofMap alwaysFlush
      (engineStore opening closing stdType size calls) [] [] = some (retValue, _) :=
    metaGetAll_engineStore clean outer outer' inside alwaysFlush
  rw [init, answer, Option.bind_eq_bind, Option.bind_some, catalog]
  refine foldlM_initRecord (fun entry member => ?_) io
  obtain ⟨q, -, -, v, -, -, read, standard⟩ := read_listing clean outer outer' inside member
  exact ⟨v, read, standard⟩

end Catalog

/-- A rank reads of its variable the text that it has put last. -/
theorem get_engineStore (inside : rank < size) (clean : ∀ c ∈ calls, c.Clean size) {name : Bytes} {text : Value}
    (last : lastValue (engineTexts stdType rank calls) name = some text) (value : Value) :
    (LSMIOManager.ofRank size rank).get .ofMap alwaysFlush (engineStore opening closing stdType size calls) name value =
      some (true, text) := by
  obtain ⟨cleanName, named⟩ := clean_text clean last
  have stored : LSMIOStore.ofMap.get (engineStore opening closing stdType size calls)
      ((LSMIOManager.ofRank size rank).aggregator.rankedKey rank name) = some text :=
        (getElem?_data inside clean named).trans last
  cases opened : (LSMIOManager.ofRank size rank).isOpenLocal with
  | true =>
    have own : (LSMIOManager.ofRank size rank).rankedKey (LSMIOManager.ofRank size rank).aggRank name =
      (LSMIOManager.ofRank size rank).aggregator.rankedKey rank name := LSMIOManager.rankedKey_of_local opened rank name
    rw [LSMIOManager.get, LSMIOManager.readKey, if_pos opened, own, stored]
    rfl
  | false =>
    refine (LSMIOManager.get_remote (LSMIOManager.isOpenRemote_of_not_local opened) cleanName.plain _ value).trans ?_
    have aggRank : (LSMIOManager.ofRank size rank).aggRank = rank := rfl
    rw [aggRank, stored]
    rfl

/-- What the engines of a group have written, in whatever order, is what they read when it is opened again. Each
rank reads of a variable the text it has put there last. A client finds the variables that it has recorded last
itself, the aggregator those of all ranks, with its own record where it has one of the name; `Init` throws exactly
where two of them have one name and different types. -/
theorem engines_restore {ι : Type} {A : AdiosIO ι} {accepts : VariableInfo → Prop} (documented : A.Documented accepts)
    (outer : opening ≠ 59 ∧ opening ≠ 10) (outer' : closing ≠ 59 ∧ closing ≠ 10) (clean : ∀ c ∈ calls, c.Clean size)
    (accepted : ∀ q name v, lastValue (engineRecords stdType q calls) name = some v → accepts v)
    (inside : rank < size) {io : ι} (empty : A.getVariables io = []) :
    ∃ s, engineHistory .ofMap opening closing stdType size alwaysFlush ∅ calls = some s ∧
      (∀ name text value, lastValue (engineTexts stdType rank calls) name = some text →
        (LSMIOManager.ofRank size rank).get .ofMap alwaysFlush s name value = some (true, text)) ∧
      (∀ io', init stdType alwaysFlush A (LSMIOManager.ofRank size rank) s io = some io' →
        (∀ v ∈ A.getVariables io', ∃ q < size, Finds rank q ∧
        lastValue (engineRecords stdType q calls) v.name = some v) ∧
        ∀ q < size, Finds rank q → ∀ name v, lastValue (engineRecords stdType q calls) name = some v →
          ∃ u ∈ A.getVariables io', u.name = name ∧ (q = rank → u = v)) ∧
      ((init stdType alwaysFlush A (LSMIOManager.ofRank size rank) s io).isSome ↔
        ∀ q < size, Finds rank q → ∀ p < size, Finds rank p →
        ∀ name u v, lastValue (engineRecords stdType q calls) name = some u →
          lastValue (engineRecords stdType p calls) name = some v → u.type = v.type) := by
  refine ⟨_, engineHistory_eq clean, fun name text value last => get_engineStore inside clean last value, ?_⟩
  have member := fun v => @mem_catalog_iff _ _ stdType _ _ _ clean outer outer' inside v
  have acceptedAll : ∀ v ∈ catalog opening closing stdType size rank calls, accepts v := by
    intro v inCatalog
    obtain ⟨q, -, -, last⟩ := (member v).mp inCatalog
    exact accepted q v.name v last
  obtain ⟨firsts, agrees⟩ := AdiosIO.foldlM_addVariable documented empty acceptedAll
  rw [init_eq clean outer outer' inside]
  refine ⟨fun io' read => ?_, agrees.trans ?_⟩
  · have first := firsts io' read
    refine ⟨fun v there => (member v).mp (List.mem_of_find?_eq_some ((first v).mp there)),
      fun q insideQ finds name v last => ?_⟩
    obtain ⟨rfl, -⟩ := clean_record clean last
    by_cases own : q = rank
    · subst own
      exact ⟨v, (first v).mpr (find?_catalog clean outer outer' inside last), rfl, fun _ => rfl⟩
    · obtain ⟨u, there, named⟩ := (first.named v.name).mpr ⟨v, (member v).mpr ⟨q, insideQ, finds, last⟩, rfl⟩
      exact ⟨u, there, named, fun same => absurd same own⟩
  · constructor
    · intro agree q insideQ finds p insideP finds' name u v last last'
      obtain ⟨rfl, -⟩ := clean_record clean last
      obtain ⟨same, -⟩ := clean_record clean last'
      exact agree u ((member u).mpr ⟨q, insideQ, finds, last⟩) v
        ((member v).mpr ⟨p, insideP, finds', by rw [same, last']⟩) same.symm
    · intro agree u inCatalog v inCatalog' same
      obtain ⟨q, insideQ, finds, last⟩ := (member u).mp inCatalog
      obtain ⟨p, insideP, finds', last'⟩ := (member v).mp inCatalog'
      exact agree q insideQ finds p insideP finds' u.name u v last (by rw [same, last'])

end LsmioPlugin

/-- An IO that keeps its variables in a list. -/
def AdiosIO.ofList : AdiosIO (List VariableInfo) where
  getVariables vars := vars
  inquireVariable vars type name := vars.any fun v => v.type = type ∧ v.name = name
  defineVariable vars v := if vars.any fun u => u.name = v.name then none else some (vars ++ [v])

theorem AdiosIO.documented_ofList : AdiosIO.ofList.Documented fun _ => True where
  inquired vars type name := by simp [ofList]
  refused vars v _ := by simp [ofList]
  defined vars v vars' added u := by
    simp only [ofList, Option.ite_none_left_eq_some, Option.some.injEq] at added
    simp [ofList, ← added.2]

namespace LsmioPlugin

/-- The aggregator and its client both have a variable `x`; the aggregator finds its own, and `y` of the client. -/
theorem engines_restore_pair : ∃ s, engineHistory .ofMap 123 125 (fun _ => true) 2 true ∅
      [.performPuts 1 [⟨ascii "y", ascii "int32_t", [4], [2], [2]⟩, ⟨ascii "x", ascii "float", [4], [2], [2]⟩],
        .performPuts 0 [⟨ascii "x", ascii "float", [4], [0], [2]⟩]] = some s ∧
    ∀ vars, init (fun _ => true) true AdiosIO.ofList (LSMIOManager.ofRank 2 0) s [] = some vars →
      ∃ u ∈ vars, u.name = ascii "x" ∧ u = ⟨ascii "x", ascii "float", [4], [0], [2]⟩ := by
  have known : ∀ name ∈ [ascii "x", ascii "y"], CleanName name := by decide +kernel
  have clean : ∀ c ∈ [.performPuts 1 [⟨ascii "y", ascii "int32_t", [4], [2], [2]⟩,
    ⟨ascii "x", ascii "float", [4], [2], [2]⟩],
      .performPuts 0 [⟨ascii "x", ascii "float", [4], [0], [2]⟩]], EngineCall.Clean 2 c := by
    have extents (name type : Bytes) (start : UInt64) (member : name ∈ [ascii "x", ascii "y"])
        (typed : 59 ∉ type ∧ 10 ∉ type) (small : start.toNat < 2147483648) :
        VariableInfo.Clean ⟨name, type, [4], [start], [2]⟩ :=
      ⟨known name member, typed, by simp [small]⟩
    simp only [List.forall_mem_cons, List.not_mem_nil, false_implies, implies_true, and_true, EngineCall.Clean,
      EngineCall.rank]
    refine ⟨⟨by decide, ?_, ?_⟩, by decide, ?_⟩
    · exact extents _ _ _ (by simp) (by decide +kernel) (by simp)
    · exact extents _ _ _ (by simp) (by decide +kernel) (by simp)
    · exact extents _ _ _ (by simp) (by decide +kernel) (by simp)
  obtain ⟨s, history, -, found, -⟩ := engines_restore AdiosIO.documented_ofList
    (show (123 : UInt8) ≠ 59 ∧ (123 : UInt8) ≠ 10 by decide)
    (show (125 : UInt8) ≠ 59 ∧ (125 : UInt8) ≠ 10 by decide) clean
    (fun _ _ _ _ => trivial) (show 0 < 2 by decide) (show AdiosIO.ofList.getVariables [] = [] from rfl)
  refine ⟨s, history, fun vars read => ?_⟩
  obtain ⟨u, there, named, own⟩ := (found vars read).2 0 (by decide) (.inl rfl) (ascii "x")
    ⟨ascii "x", ascii "float", [4], [0], [2]⟩ (by decide +kernel)
  exact ⟨u, there, named, own rfl⟩

end LsmioPlugin

end LSMIO
