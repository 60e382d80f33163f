import LSMIO.CollectivePhases

namespace LSMIO

open LSMIOStore (StoreMap metaPrefix)

/-- The part of all data and metadata keys that is one rank's. -/
def InNamespace (rank : Nat) (key : Key) : Prop :=
  Decimal.digits rank ++ ascii "::" <+: key ∨ metaPrefix ++ (Decimal.digits rank ++ ascii "::") <+: key

/-- Two stores with the same data and metadata of a rank. -/
def SameTo (rank : Nat) (s t : StoreMap) : Prop := ∀ key, InNamespace rank key → s[key]? = t[key]?

theorem inNamespace_iff {rank : Nat} {key : Key} : InNamespace rank key ↔
    (∃ rest, key = Decimal.digits rank ++ 58 :: 58 :: rest) ∨
      ∃ rest, key = metaPrefix ++ (Decimal.digits rank ++ 58 :: 58 :: rest) := by
  have colons : ascii "::" = [58, 58] := by decide
  simp only [InNamespace, List.prefix_iff_exists_eq_append, colons, List.append_assoc, List.cons_append,
    List.nil_append]

theorem digits_append_ne_metaPrefix (rank : Nat) (text rest : Bytes) :
    Decimal.digits rank ++ text ≠ metaPrefix ++ rest := by
  intro same
  obtain ⟨b, tail, digits⟩ := List.exists_cons_of_ne_nil (Decimal.digits_ne_nil rank)
  have digit := Decimal.digits_isDigit rank b (digits ▸ List.mem_cons_self ..)
  have first := congrArg List.head? same
  rw [digits] at first
  have underscore : b = 95 := by simpa [metaPrefix, ascii] using first
  rw [underscore] at digit
  revert digit
  decide

/-- Ranks are told apart by their keys, also those whose numbers begin alike. -/
theorem InNamespace.unique {q r : Nat} {key : Key} (mine : InNamespace q key) (yours : InNamespace r key) : q = r := by
  rw [inNamespace_iff] at mine yours
  rcases mine with ⟨rest, rfl⟩ | ⟨rest, rfl⟩
  · rcases yours with ⟨rest', same⟩ | ⟨rest', same⟩
    · exact (Decimal.digits_append_inj (by decide) same).1
    · exact absurd same (digits_append_ne_metaPrefix _ _ _)
  · rcases yours with ⟨rest', same⟩ | ⟨rest', same⟩
    · exact absurd same.symm (digits_append_ne_metaPrefix _ _ _)
    · exact (Decimal.digits_append_inj (by decide) (List.append_cancel_left same)).1

theorem getElem?_batchMutation (s : StoreMap) (mType : MutationType) (key other : Key) (value : Value) (flush : Bool) :
    (LSMIOStore.ofMap.batchMutation s mType key value flush).2[other]? =
      if key = other then (match mType with | .put => some value | .del => none) else s[other]? := by
  cases mType with
  | put => exact OrderedMap.getElem?_insert s key other value
  | del => exact OrderedMap.getElem?_erase s key other

/-- A mutation in the namespace of another rank is not seen. -/
theorem SameTo.mutation_other {q r : Nat} {s t : StoreMap} (same : SameTo r s t) (other : q ≠ r) {mType : MutationType}
    {key : Key} (mine : InNamespace q key) (value : Value) (flush : Bool) :
    SameTo r (LSMIOStore.ofMap.batchMutation s mType key value flush).2 t := by
  intro k inside
  have elsewhere : key ≠ k := fun here => other (mine.unique (by rw [here]; exact inside))
  rw [getElem?_batchMutation, if_neg elsewhere]
  exact same k inside

theorem SameTo.mutation {r : Nat} {s t : StoreMap} (same : SameTo r s t) (mType : MutationType) (key : Key)
    (value : Value) (flush : Bool) :
    SameTo r (LSMIOStore.ofMap.batchMutation s mType key value flush).2
      (LSMIOStore.ofMap.batchMutation t mType key value flush).2 := by
  intro k inside
  rw [getElem?_batchMutation, getElem?_batchMutation, same k inside]

theorem SameTo.metaGetAll {r : Nat} {s t : StoreMap} (same : SameTo r s t) :
    LSMIOStore.ofMap.metaGetAll s (Decimal.digits r ++ ascii "::") =
      LSMIOStore.ofMap.metaGetAll t (Decimal.digits r ++ ascii "::") := by
  have agree : ∀ key, decide (metaPrefix ++ (Decimal.digits r ++ ascii "::") <+: key) = true → s[key]? = t[key]? :=
    fun key held => same key (.inr (of_decide_eq_true held))
  exact congrArg (Prod.mk true) (OrderedMap.filter_toList_congr agree)

namespace Collective

variable {n : Nat}

theorem rankedKey_manager [NeZero n] (rank : Nat) (key : Key) :
    (manager n).rankedKey rank key = Decimal.digits rank ++ ascii "::" ++ key := by
  have served : 1 < n + 1 := Nat.succ_lt_succ (Nat.pos_of_neZero n)
  simp [LSMIOManager.rankedKey, LSMIOManager.isServeLocal, manager, served]

theorem inNamespace_rankedKey [NeZero n] (rank : Nat) (key : Key) :
    InNamespace rank ((manager n).rankedKey rank key) := by
  rw [rankedKey_manager]
  exact .inl (List.prefix_append _ _)

theorem inNamespace_metaKey [NeZero n] (rank : Nat) (key : Key) :
    InNamespace rank (metaPrefix ++ (manager n).rankedKey rank key) := by
  rw [rankedKey_manager, ← List.append_assoc]
  exact .inr (List.prefix_append _ _)

/-- The mutation of the store that an operation makes, if it makes one. -/
def Operation.mutation? (n : Nat) : Operation → Option (MutationType × Key × Value)
  | .served rank msg =>
    if msg.command = KV_CMD.GET then none
    else if msg.command = KV_CMD.PUT then some (.put, (manager n).rankedKey rank msg.key, msg.value)
    else if msg.command = KV_CMD.DEL then some (.del, (manager n).rankedKey rank msg.key, [])
    else if msg.command = KV_CMD.META_GET then none
    else if msg.command = KV_CMD.META_GET_ALL then none
    else if msg.command = KV_CMD.META_PUT then some (.put, metaPrefix ++ (manager n).rankedKey rank msg.key, msg.value)
    else none
  | .own (.put key value) _ => some (.put, (manager n).rankedKey AGGREGATION_RANK key, value)
  | .own (.del key) _ => some (.del, (manager n).rankedKey AGGREGATION_RANK key, [])
  | .own (.metaPut key value) _ => some (.put, metaPrefix ++ (manager n).rankedKey AGGREGATION_RANK key, value)
  | .own _ _ => none

/-- On a map, where nothing is deferred, an operation is its mutation. -/
theorem store_act (alwaysFlush : Bool) (op : Operation) (s : StoreMap) :
    (act n .ofMap alwaysFlush op s).1 = match op.mutation? n with
      | none => s
      | some (mType, key, value) => (LSMIOStore.ofMap.batchMutation s mType key value true).2 := by
  cases op with
  | served rank msg =>
    simp only [act, LSMIOManager.handleCommand, LSMIOManager.callbackForCollectiveIO, Operation.mutation?]
    split_ifs <;> rfl
  | own c flush => cases c <;> rfl

theorem inNamespace_mutation [NeZero n] {op : Operation} {mType : MutationType} {key : Key} {value : Value}
    (is : op.mutation? n = some (mType, key, value)) : InNamespace op.rank key := by
  cases op with
  | served rank msg =>
    rw [Operation.mutation?] at is
    split_ifs at is
    all_goals cases is
    · exact inNamespace_rankedKey _ _
    · exact inNamespace_rankedKey _ _
    · exact inNamespace_metaKey _ _
  | own c flush =>
    cases c <;> cases is
    · exact inNamespace_rankedKey _ _
    · exact inNamespace_rankedKey _ _
    · exact inNamespace_metaKey _ _

/-- The value of a reply depends on the rank's own namespace alone. -/
theorem reply_congr [NeZero n] {r : Nat} {s t : StoreMap} (same : SameTo r s t) (alwaysFlush : Bool) (msg : Message) :
    ((manager n).handleCommand .ofMap alwaysFlush s r msg).2 =
      ((manager n).handleCommand .ofMap alwaysFlush t r msg).2 := by
  have data : LSMIOStore.ofMap.get s ((manager n).rankedKey r msg.key) =
      LSMIOStore.ofMap.get t ((manager n).rankedKey r msg.key) := same _ (inNamespace_rankedKey _ _)
  have metadata : LSMIOStore.ofMap.metaGet s ((manager n).rankedKey r msg.key) =
      LSMIOStore.ofMap.metaGet t ((manager n).rankedKey r msg.key) := same _ (inNamespace_metaKey _ _)
  simp only [LSMIOManager.handleCommand, LSMIOManager.callbackForCollectiveIO, data, metadata, same.metaGetAll]
  split_ifs <;> rfl

/-- The aggregator isolates the ranks: an operation reads and writes the namespace of the rank it is executed for. -/
theorem isolated [NeZero n] (alwaysFlush : Bool) : Isolated Operation.rank (act n .ofMap alwaysFlush) SameTo where
  refl _ _ _ _ := rfl
  own {s t} op same := by
    constructor
    · rw [store_act, store_act]
      cases op.mutation? n with
      | none => exact same
      | some mutation => exact same.mutation _ _ _ _
    · cases op with
      | served r msg => exact reply_congr same alwaysFlush msg
      | own c flush => rfl
  other {r s t} op other same := by
    rw [store_act]
    cases is : op.mutation? n with
    | none => exact same
    | some mutation => exact same.mutation_other other (inNamespace_mutation is) _ _

/-- What the operations of one client give on an empty store that nobody else uses:
the store, and the replies. -/
def alone (n : Nat) (alwaysFlush : Bool) (rank : Nat) (msgs : List Message) : StoreMap × List Message :=
  let (store, replies) := served n .ofMap alwaysFlush ∅ (msgs.map (.served rank))
  (store, outputsOf rank replies)

theorem alone_concat (alwaysFlush : Bool) (rank : Nat) (msgs : List Message) (msg : Message) :
    alone n alwaysFlush rank (msgs ++ [msg]) =
      (((manager n).handleCommand .ofMap alwaysFlush (alone n alwaysFlush rank msgs).1 rank msg).1,
        (alone n alwaysFlush rank msgs).2 ++
          ((manager n).handleCommand .ofMap alwaysFlush (alone n alwaysFlush rank msgs).1 rank msg).2.toList) := by
  simp only [alone, served, List.map_append, List.map_singleton, serve_concat]
  exact congrArg (Prod.mk _) (outputsOf_append_own _ _ _)

/-- More operations leave the replies to the earlier ones as they are. -/
theorem alone_replies_mono (alwaysFlush : Bool) (rank : Nat) (front rest : List Message) :
    (alone n alwaysFlush rank front).2 <+: (alone n alwaysFlush rank (front ++ rest)).2 := by
  induction rest using List.reverseRecOn with
  | nil => simp
  | append_singleton rest msg ih =>
    rw [← List.append_assoc, alone_concat]
    exact ih.trans (List.prefix_append _ _)

/-- The operations that the aggregator has executed for a client. -/
def executed (i : Fin n) (trace : List (Event n)) : List Message := (read i trace).filter (·.command ≠ EOL_COMMAND)

theorem filter_operations (i : Fin n) (trace : List (Event n)) :
    (operations trace).filter (·.rank = rank i) = (executed i trace).map (.served (rank i)) := by
  induction trace using List.reverseRecOn with
  | nil => rfl
  | append_singleton trace e ih =>
    have more : executed i (trace ++ [e]) = executed i trace ++
      (e.read? i).toList.filter (·.command ≠ EOL_COMMAND) := by
      rw [executed, read_concat, List.filter_append, executed]
    rw [operations_concat, List.filter_append, ih, more, List.map_append]
    congr 1
    cases e with
    | handle j msg =>
      by_cases mine : j = i
      · subst mine
        by_cases eol : msg.command = EOL_COMMAND
        · simp [Event.operation?, Event.read?, eol]
        · simp [Event.operation?, Event.read?, eol, Operation.rank]
      · have other : rank j ≠ rank i := fun same => mine (rank_injective same)
        by_cases eol : msg.command = EOL_COMMAND
        · simp [Event.operation?, Event.read?, eol, mine]
        · simp [Event.operation?, Event.read?, eol, mine, Operation.rank, other]
    | own c flush => simp [Event.operation?, Event.read?, Operation.rank, AGGREGATION_RANK, Collective.rank]
    | _ => rfl

theorem rankedKey_ne_metaKey [NeZero n] (rank : Nat) (key other : Key) :
    (manager n).rankedKey rank key ≠ metaPrefix ++ other := by
  rw [rankedKey_manager, List.append_assoc]
  exact digits_append_ne_metaPrefix _ _ _

theorem rankedKey_injective [NeZero n] (rank : Nat) : Function.Injective ((manager n).rankedKey rank) := by
  intro key other same
  rw [rankedKey_manager, rankedKey_manager] at same
  exact List.append_cancel_left same

/-- A metadata entry of a client alone on the store was put there by the client. -/
theorem metaPut_of_alone [NeZero n] (alwaysFlush : Bool) (rank : Nat) {msgs : List Message} {key : Key} {value : Value}
    (found : LSMIOStore.ofMap.metaGet (alone n alwaysFlush rank msgs).1 ((manager n).rankedKey rank key) = some value) :
    ⟨KV_CMD.META_PUT, key, value⟩ ∈ msgs := by
  induction msgs using List.reverseRecOn with
  | nil => simp [alone, served, serve, LSMIOStore.metaGet, LSMIOStore.ofMap] at found
  | append_singleton msgs msg ih =>
    have next : (alone n alwaysFlush rank (msgs ++ [msg])).1 =
        (act n .ofMap alwaysFlush (.served rank msg) (alone n alwaysFlush rank msgs).1).1 := by
      rw [alone_concat]
      rfl
    rw [next, store_act] at found
    cases is : (Operation.served rank msg).mutation? n with
    | none =>
      rw [is] at found
      exact List.mem_append_left _ (ih found)
    | some mutation =>
      obtain ⟨mType, k, v⟩ := mutation
      rw [is] at found
      have lookup := getElem?_batchMutation (alone n alwaysFlush rank msgs).1 mType k
        (metaPrefix ++ (manager n).rankedKey rank key) v true
      rw [LSMIOStore.metaGet] at found
      have found' := lookup.symm.trans found
      by_cases here : k = metaPrefix ++ (manager n).rankedKey rank key
      · rw [if_pos here] at found'
        rw [Operation.mutation?] at is
        split_ifs at is with _ _ _ _ _ metaPut <;> cases is
        · exact absurd here (rankedKey_ne_metaKey _ _ _)
        · exact absurd here (rankedKey_ne_metaKey _ _ _)
        · have sameKey := rankedKey_injective rank (List.append_cancel_left here)
          have sameValue : msg.value = value := Option.some.inj found'
          rw [← sameKey, ← sameValue, ← metaPut]
          simp
      · rw [if_neg here] at found'
        exact List.mem_append_left _ (ih found')

section Runs

variable [NeZero n] {alwaysFlush : Bool} {scripts : Fin n → List Command} {own : List (Command × Bool)}
variable {trace : List (Event n)} {s : State StoreMap n}

/-- The part of the store that is a client's, and the replies due to it, are what its operations give alone. -/
theorem alone_of_run (run : Run (State.Next .ofMap alwaysFlush) (State.init scripts own ∅) trace s) (i : Fin n) :
    SameTo (rank i) s.store (alone n alwaysFlush (rank i) (executed i trace)).1 ∧
      due .ofMap alwaysFlush ∅ i trace = (alone n alwaysFlush (rank i) (executed i trace)).2 := by
  have purged := (isolated (n := n) alwaysFlush).serve_filter (rank i) ∅ (operations trace)
  rw [filter_operations] at purged
  rw [store_eq_serve run]
  exact purged

/-- Messages with plain keys are read as they were sent. -/
theorem read_of_plain {sentNow script : List Command} {handled flight readNow takenNow back due : List Message}
    {l : Link} (tracks : l.Tracks script sentNow handled flight readNow takenNow back due)
    (plain : ∀ c ∈ script, Plain c.message.key) : handled = readNow := by
  have readable : ∀ m ∈ handled, Plain m.command ∧ Plain m.key := by
    intro m member
    have whole : m ∈ sentNow.map Command.message ++ l.client.last := tracks.outgoing ▸ List.mem_append_left _ member
    rcases List.mem_append.mp whole with operation | last
    · obtain ⟨c, issued, rfl⟩ := List.mem_map.mp operation
      exact ⟨c.plain_message_command, plain c (tracks.script ▸ List.mem_append_left _ issued)⟩
    · have eol : m = eolMessage := by
        cases pc : l.client <;> simp [pc] at last <;> exact last
      rw [eol]
      exact ⟨plain_of_mem_commands _ (by decide +kernel), plain_dummy⟩
  have readAs := tracks.readAs
  clear tracks
  induction readAs with
  | nil => rfl
  | @cons m msg handled readNow asRead rest ih =>
    obtain ⟨command, key⟩ := readable m (List.mem_cons_self ..)
    have same : m = msg := Option.some.inj ((Message.received_serialize command key).symm.trans asRead)
    rw [same, ih fun m member => readable m (List.mem_cons_of_mem _ member)]

theorem executed_prefix_sent {σ : Type*} {store : LSMIOStore σ} {initial : σ} {s : State σ n}
    (run : Run (State.Next store alwaysFlush) (State.init scripts own initial) trace s)
    (plain : ∀ i, ∀ c ∈ scripts i, Plain c.message.key) (i : Fin n) :
    executed i trace <+: (sent i trace).map Command.message := by
  obtain ⟨handled, flight, back, tracks⟩ := tracks_of_run run i
  have operations : ((sent i trace).map Command.message).filter (·.command ≠ EOL_COMMAND) =
      (sent i trace).map Command.message := by
    rw [List.filter_eq_self]
    intro m member
    obtain ⟨c, -, rfl⟩ := List.mem_map.mp member
    simpa using c.message_command_ne_eol
  have last : (s.links i).client.last.filter (·.command ≠ EOL_COMMAND) = [] := by
    cases (s.links i).client <;> simp [eolMessage]
  have whole := congrArg (List.filter (·.command ≠ EOL_COMMAND)) tracks.outgoing
  rw [List.filter_append, List.filter_append, operations, last, List.append_nil,
    read_of_plain tracks (plain i)] at whole
  exact ⟨_, whole⟩

/-- The pairs that a client's `META_GET_ALL` collects were put there by the client. -/
theorem metaPut_of_listed {rank : Nat} {msgs : List Message} {store : StoreMap}
    (same : SameTo rank store (alone n alwaysFlush rank msgs).1) {entry : Key × Value}
    (listed : entry ∈ (LSMIOStore.ofMap.metaGetAll store (Decimal.digits rank ++ ascii "::")).2) :
    ∃ key, entry.1 = metaPrefix ++ (manager n).rankedKey rank key ∧ ⟨KV_CMD.META_PUT, key, entry.2⟩ ∈ msgs := by
  obtain ⟨inStore, starts⟩ := List.mem_filter.mp listed
  obtain ⟨key, name⟩ := of_decide_eq_true starts
  have name' : entry.1 = metaPrefix ++ (manager n).rankedKey rank key := by
    rw [← name, rankedKey_manager, List.append_assoc]
  have found : store[entry.1]? = some entry.2 := Std.ExtTreeMap.mem_toList_iff_getElem?_eq_some.mp inStore
  have there := same entry.1 (.inr (of_decide_eq_true starts))
  rw [found, name'] at there
  exact ⟨key, name', metaPut_of_alone alwaysFlush rank there.symm⟩

end Runs

/-- What the aggregator does for a client is what the client sent, once and in
order; the client's part of the store and its replies are those of its own
operations on a store that nobody else uses. -/
theorem isolated_execution {n : Nat} [NeZero n] (alwaysFlush : Bool) (scripts : Fin n → List Command)
    (own : List (Command × Bool)) (plain : ∀ i, ∀ c ∈ scripts i, Plain c.message.key) {trace : List (Event n)}
    {s : State StoreMap n} (run : Run (State.Next .ofMap alwaysFlush) (State.init scripts own ∅) trace s) (i : Fin n) :
    executed i trace <+: (sent i trace).map Command.message ∧
      (∀ key, LSMIOStore.ofMap.get s.store ((manager n).rankedKey (rank i) key) =
          LSMIOStore.ofMap.get (alone n alwaysFlush (rank i) (executed i trace)).1
          ((manager n).rankedKey (rank i) key) ∧
        LSMIOStore.ofMap.metaGet s.store ((manager n).rankedKey (rank i) key) =
          LSMIOStore.ofMap.metaGet (alone n alwaysFlush (rank i) (executed i trace)).1
            ((manager n).rankedKey (rank i) key)) ∧
      (∀ entry ∈ (LSMIOStore.ofMap.metaGetAll s.store (Decimal.digits (rank i) ++ ascii "::")).2,
        ∃ key, entry.1 = metaPrefix ++ (manager n).rankedKey (rank i) key ∧ .metaPut key entry.2 ∈ sent i trace) ∧
      taken i trace <+: (alone n alwaysFlush (rank i) ((sent i trace).map Command.message)).2 := by
  have sentFirst := executed_prefix_sent run plain i
  obtain ⟨same, replies⟩ := alone_of_run run i
  refine ⟨sentFirst, fun key => ⟨?_, ?_⟩, ?_, ?_⟩
  · exact same _ (inNamespace_rankedKey _ _)
  · exact same _ (inNamespace_metaKey _ _)
  · intro entry listed
    obtain ⟨key, name, put⟩ := metaPut_of_listed same listed
    obtain ⟨c, issued, is⟩ := List.mem_map.mp (sentFirst.subset put)
    exact ⟨key, name, Command.eq_metaPut is ▸ issued⟩
  · obtain ⟨rest, whole⟩ := sentFirst
    obtain ⟨_, _, back, tracks⟩ := tracks_of_run run i
    have due : taken i trace <+: (alone n alwaysFlush (rank i) (executed i trace)).2 :=
      replies ▸ ⟨back, tracks.replies⟩
    exact due.trans (whole ▸ alone_replies_mono _ _ _ _)

theorem isolated_execution_put : ∃ s : State StoreMap 1,
    Run (State.Next .ofMap true) (State.init (fun _ => [.put [107] [7]]) [(.put [107] [9], true)] ∅)
        [.send 0 (.put [107] [7]), .loop, .recv 0, .handle 0 ⟨KV_CMD.PUT, [107], [7]⟩, .own (.put [107] [9]) true] s ∧
      LSMIOStore.ofMap.get s.store ((manager 1).rankedKey 1 [107]) = some [7] := by
  obtain ⟨s, run, -⟩ : ∃ s : State StoreMap 1, Run (Allowed (State.step .ofMap true) fun _ _ => True)
      (State.init (fun _ => [.put [107] [7]]) [(.put [107] [9], true)] ∅) [.send 0 (.put [107] [7]), .loop, .recv 0,
        .handle 0 ⟨KV_CMD.PUT, [107], [7]⟩, .own (.put [107] [9]) true] s ∧ s.loopCounter = 1 :=
    Run.exists_of_any (by decide +kernel)
  have run' : Run (State.Next .ofMap true) _ _ s := run.mono fun _ _ _ allowed => allowed.2
  have isolated := isolated_execution true (fun _ : Fin 1 => [.put [107] [7]]) [(.put [107] [9], true)]
    (by decide) run' 0
  exact ⟨s, run', (isolated.2.1 [107]).1.trans (by decide +kernel)⟩

end Collective

end LSMIO
