import LSMIO.CollectiveIsolation
import LSMIO.Deferring

namespace LSMIO

open LSMIOStore (StoreMap metaPrefix)

namespace Collective

variable {n : Nat}

/-- The messages up to the last one that leaves nothing deferred. -/
def settledPart (alwaysFlush : Bool) (msgs : List Message) : List Message :=
  msgs.rdropWhile fun msg => !(alwaysFlush || msg.command == KV_CMD.WRITE_BARRIER)

/-- The replies to a client alone whose operations are deferred: each is read
off a front part of the messages before it, of length `seen` for the last one.
A later reply never goes behind an earlier one, nor behind a flush. -/
inductive Lagged (n : Nat) (alwaysFlush : Bool) (rank : Nat) : List Message → Nat → List Message → Prop
  | start : Lagged n alwaysFlush rank [] 0 []
  | next {msgs replies : List Message} {seen seen' : Nat} {msg : Message}
    (before : Lagged n alwaysFlush rank msgs seen replies)
      (later : seen ≤ seen') (settled : (settledPart alwaysFlush msgs).length ≤ seen') (inside : seen' ≤ msgs.length) :
      Lagged n alwaysFlush rank (msgs ++ [msg]) seen' (replies ++
        ((manager n).handleCommand .ofMap alwaysFlush (alone n alwaysFlush rank (msgs.take seen')).1 rank msg).2.toList)

theorem settledPart_length_le (alwaysFlush : Bool) (msgs : List Message) :
    (settledPart alwaysFlush msgs).length ≤ msgs.length :=
  (List.rdropWhile_prefix _ _).length_le

@[simp] theorem settledPart_true (msgs : List Message) : settledPart true msgs = msgs := by simp [settledPart]

theorem settledPart_concat (alwaysFlush : Bool) (msgs : List Message) (msg : Message) :
    settledPart alwaysFlush (msgs ++ [msg]) =
      if alwaysFlush = true ∨
        msg.command = KV_CMD.WRITE_BARRIER then msgs ++ [msg] else settledPart alwaysFlush msgs := by
  rw [settledPart, List.rdropWhile_concat]
  by_cases flushes : alwaysFlush = true ∨ msg.command = KV_CMD.WRITE_BARRIER
  · have kept : ¬ (!(alwaysFlush || msg.command == KV_CMD.WRITE_BARRIER)) = true := by
      rcases flushes with flushing | barrier
      · simp [flushing]
      · simp [barrier]
    rw [if_pos flushes, if_neg kept]
  · rw [if_neg flushes, if_pos (by simpa using flushes)]
    rfl

/-- Where every mutation flushes, the replies do not lag. -/
theorem Lagged.eq_alone {rank seen : Nat} {msgs replies : List Message}
    (lagged : Lagged n true rank msgs seen replies) :
    replies = (alone n true rank msgs).2 := by
  induction lagged with
  | start => rfl
  | @next msgs replies seen seen' msg before later settled inside ih =>
    rw [settledPart_true] at settled
    rw [alone_concat, ih, List.take_of_length_le settled]

/-- Whether the mutation of an operation flushes. -/
def Operation.flush (alwaysFlush : Bool) : Operation → Bool
  | .served _ _ => alwaysFlush
  | .own _ flush => flush

section Act

variable {σ : Type*} {store : LSMIOStore σ} {alwaysFlush : Bool} {op : Operation} {s : σ}

theorem act_mutation {mType : MutationType} {key : Key} {value : Value}
    (is : op.mutation? n = some (mType, key, value)) :
    (act n store alwaysFlush op s).1 = (store.batchMutation s mType key value (op.flush alwaysFlush)).2 := by
  cases op with
  | served rank msg =>
    simp only [act, LSMIOManager.handleCommand, LSMIOManager.callbackForCollectiveIO, Operation.mutation?] at is ⊢
    split_ifs at is ⊢ <;> cases is <;> rfl
  | own c flush => cases c <;> cases is <;> rfl

theorem act_quiet (store : LSMIOStore σ) (alwaysFlush : Bool) (s : σ) (is : op.mutation? n = none) :
    (act n store alwaysFlush op s).1 = s ∨
    (act n store alwaysFlush op s).1 = (store.readBarrier s).2 ∨
      (act n store alwaysFlush op s).1 = (store.writeBarrier s).2 := by
  cases op with
  | served rank msg =>
    simp only [act, LSMIOManager.handleCommand, LSMIOManager.callbackForCollectiveIO, Operation.mutation?] at is ⊢
    split_ifs at is ⊢ <;> simp_all
  | own c flush => cases c <;> simp_all [act, State.ownOperation, Operation.mutation?]

theorem act_writeBarrier {rank : Nat} {msg : Message} (barrier : msg.command = KV_CMD.WRITE_BARRIER) :
    (act n store alwaysFlush (.served rank msg) s).1 = (store.writeBarrier s).2 := by
  have others : KV_CMD.WRITE_BARRIER ∉ [KV_CMD.GET, KV_CMD.PUT, KV_CMD.DEL, KV_CMD.META_GET, KV_CMD.META_GET_ALL,
    KV_CMD.META_PUT] := by
    decide +kernel
  simp only [List.mem_cons, List.not_mem_nil, or_false, not_or] at others
  simp [act, LSMIOManager.handleCommand, LSMIOManager.callbackForCollectiveIO, barrier, others]

theorem served_concat (initial : σ) (ops : List Operation) (op : Operation) :
    served n store alwaysFlush initial
      (ops ++ [op]) = ((act n store alwaysFlush op (served n store alwaysFlush initial ops).1).1,
      (served n store alwaysFlush initial ops).2 ++
        (act n store alwaysFlush op (served n store alwaysFlush initial ops).1).2.toList.map (op.rank, ·)) :=
  serve_concat _ _ _ _ _

section Deferring

variable {shown settled : σ → StoreMap} (deferring : store.Deferring shown settled)

include deferring

/-- An operation settles as on a map, and its reply is the one that a map gives with what is shown. -/
theorem act_deferring (alwaysFlush : Bool) (op : Operation) (s : σ) :
    settled (act n store alwaysFlush op s).1 = (act n .ofMap alwaysFlush op (settled s)).1 ∧
      (act n store alwaysFlush op s).2 = (act n .ofMap alwaysFlush op (shown s)).2 := by
  cases op with
  | served rank msg =>
    exact ⟨LSMIOManager.handleCommand_settled deferring alwaysFlush _ s rank msg,
      LSMIOManager.handleCommand_shown deferring alwaysFlush _ s rank msg⟩
  | own c flush =>
    refine ⟨?_, rfl⟩
    cases c with
    | put key value => exact deferring.mutated s .put _ value flush
    | del key => exact deferring.mutated s .del _ [] flush
    | metaPut key value => exact deferring.mutated s .put _ value flush
    | readBarrier => exact (deferring.readBarrier s).2
    | writeBarrier => exact (deferring.writeBarrier s).2
    | _ => rfl

/-- What is shown after an operation is what was shown before it, or all that was settled before it or after. -/
theorem act_shown (alwaysFlush : Bool) (op : Operation) (s : σ) :
    shown (act n store alwaysFlush op s).1 = shown s ∨ shown (act n store alwaysFlush op s).1 = settled s ∨
      shown (act n store alwaysFlush op s).1 = settled (act n store alwaysFlush op s).1 := by
  cases is : op.mutation? n with
  | none =>
    rcases act_quiet store alwaysFlush s is with same | barrier | barrier
    · exact .inl (congrArg shown same)
    · exact .inr (.inl (by rw [barrier, (deferring.readBarrier s).1]))
    · exact .inr (.inl (by rw [barrier, (deferring.writeBarrier s).1]))
  | some mutation =>
    obtain ⟨mType, key, value⟩ := mutation
    rw [act_mutation is]
    exact deferring.moved s mType key value _

/-- A flushing operation leaves nothing deferred, unless it changes nothing. -/
theorem act_flushed {rank : Nat} {msg : Message} (flushes : alwaysFlush = true ∨ msg.command = KV_CMD.WRITE_BARRIER)
    (s : σ) :
    shown (act n store alwaysFlush (.served rank msg) s).1 = settled (act n store alwaysFlush (.served rank msg) s).1 ∨
      alwaysFlush = true ∧ (act n store alwaysFlush (.served rank msg) s).1 = s := by
  rcases flushes with rfl | barrier
  · cases is : (Operation.served rank msg).mutation? n with
    | none =>
      rcases act_quiet store true s is with same | barrier | barrier
      · exact .inr ⟨rfl, same⟩
      · rw [barrier, (deferring.readBarrier s).1, (deferring.readBarrier s).2]
        exact .inl rfl
      · rw [barrier, (deferring.writeBarrier s).1, (deferring.writeBarrier s).2]
        exact .inl rfl
    | some mutation =>
      obtain ⟨mType, key, value⟩ := mutation
      rw [act_mutation is]
      exact .inl (deferring.flushed s mType key value)
  · rw [act_writeBarrier barrier, (deferring.writeBarrier s).1, (deferring.writeBarrier s).2]
    exact .inl rfl

end Deferring

end Act

/-- Where a client stands: what is settled is what its messages give alone, and
what is shown what the first `seen` of them do. -/
structure Stands (n : Nat) (alwaysFlush : Bool) (rank : Nat) (shown settled : StoreMap) (msgs replies : List Message) :
    Prop where
  settled : SameTo rank settled (alone n alwaysFlush rank msgs).1
  shown : ∃ last seen, Lagged n alwaysFlush rank msgs last replies ∧ last ≤ seen ∧
    (settledPart alwaysFlush msgs).length ≤ seen ∧
    seen ≤ msgs.length ∧ SameTo rank shown (alone n alwaysFlush rank (msgs.take seen)).1

namespace Stands

variable [NeZero n] {σ : Type*} {store : LSMIOStore σ} {alwaysFlush : Bool} {shown settled : σ → StoreMap}
variable {rank : Nat} {s : σ} {msgs replies : List Message}

/-- The next operation of the client itself. -/
theorem own (deferring : store.Deferring shown settled)
    (stands : Stands n alwaysFlush rank (shown s) (settled s) msgs replies) (msg : Message) :
    Stands n alwaysFlush rank (shown (act n store alwaysFlush (.served rank msg) s).1)
      (settled (act n store alwaysFlush (.served rank msg) s).1) (msgs ++ [msg])
      (replies ++ (act n store alwaysFlush (.served rank msg) s).2.toList) := by
  obtain ⟨settles, replied⟩ := act_deferring (n := n) deferring alwaysFlush (.served rank msg) s
  obtain ⟨last, seen, lagged, later, covers, inside, same⟩ := stands.shown
  have settled' : SameTo rank (settled (act n store alwaysFlush (.served rank msg) s).1)
      (alone n alwaysFlush rank (msgs ++ [msg])).1 := by
    rw [settles, alone_concat]
    exact ((isolated alwaysFlush).own (.served rank msg) stands.settled).1
  have reply := replied.trans ((isolated alwaysFlush).own (.served rank msg) same).2
  refine ⟨settled', ?_⟩
  rw [reply]
  have lagged' : Lagged n alwaysFlush rank (msgs ++ [msg]) seen _ := lagged.next later covers inside
  by_cases flushes : alwaysFlush = true ∨ msg.command = KV_CMD.WRITE_BARRIER
  · have current : SameTo rank (shown (act n store alwaysFlush (.served rank msg) s).1)
        (settled (act n store alwaysFlush (.served rank msg) s).1) := by
      have left : shown (act n store alwaysFlush (.served rank msg) s).1 = settled
        (act n store alwaysFlush (.served rank msg) s).1 ∨
          alwaysFlush = true ∧ (act n store alwaysFlush (.served rank msg) s).1 = s := act_flushed deferring flushes s
      rcases left with equal | ⟨always, unchanged⟩
      · rw [equal]
        exact fun _ _ => rfl
      · have whole : msgs.length ≤ seen := by
          rw [always, settledPart_true] at covers
          exact covers
        rw [unchanged]
        rw [List.take_of_length_le whole] at same
        exact fun key mine => (same key mine).trans (stands.settled key mine).symm
    refine ⟨seen, (msgs ++ [msg]).length, lagged', ?_, settledPart_length_le _ _, le_rfl, ?_⟩
    · rw [List.length_append]
      omega
    · rw [List.take_length]
      exact fun key mine => (current key mine).trans (settled' key mine)
  · have part := settledPart_concat alwaysFlush msgs msg
    rw [if_neg flushes] at part
    have more : (msgs ++ [msg]).length = msgs.length + 1 := List.length_append
    have front := settledPart_length_le alwaysFlush msgs
    rw [part]
    rcases act_shown deferring alwaysFlush (.served rank msg) s with kept | drained | all
    · refine ⟨seen, seen, lagged', le_rfl, covers, by omega, ?_⟩
      rw [List.take_append_of_le_length inside, kept]
      exact same
    · refine ⟨seen, msgs.length, lagged', inside, front, by omega, ?_⟩
      rw [List.take_append_of_le_length le_rfl, List.take_length, drained]
      exact stands.settled
    · refine ⟨seen, (msgs ++ [msg]).length, lagged', by omega, by omega, le_rfl, ?_⟩
      rw [List.take_length, all]
      exact settled'

/-- An operation of another rank. -/
theorem other (deferring : store.Deferring shown settled)
    (stands : Stands n alwaysFlush rank (shown s) (settled s) msgs replies) {op : Operation} (other : op.rank ≠ rank) :
    Stands n alwaysFlush rank (shown (act n store alwaysFlush op s).1)
      (settled (act n store alwaysFlush op s).1) msgs replies := by
  obtain ⟨settles, -⟩ := act_deferring (n := n) deferring alwaysFlush op s
  obtain ⟨last, seen, lagged, later, covers, inside, same⟩ := stands.shown
  have settled' : SameTo rank (settled (act n store alwaysFlush op s).1) (alone n alwaysFlush rank msgs).1 := by
    rw [settles]
    exact (isolated alwaysFlush).other op other stands.settled
  have whole : ∀ map, SameTo rank map (alone n alwaysFlush rank msgs).1 →
    ∃ last seen, Lagged n alwaysFlush rank msgs last replies ∧
      last ≤ seen ∧ (settledPart alwaysFlush msgs).length ≤ seen ∧ seen ≤ msgs.length ∧
        SameTo rank map (alone n alwaysFlush rank (msgs.take seen)).1 := by
    intro map current
    refine ⟨last, msgs.length, lagged, later.trans inside, settledPart_length_le _ _, le_rfl, ?_⟩
    rwa [List.take_length]
  refine ⟨settled', ?_⟩
  rcases act_shown deferring alwaysFlush op s with kept | drained | all
  · rw [kept]
    exact ⟨last, seen, lagged, later, covers, inside, same⟩
  · rw [drained]
    exact whole _ stands.settled
  · rw [all]
    exact whole _ settled'

/-- All operations in turn, those of the client being its messages. -/
theorem of_operations (deferring : store.Deferring shown settled) {initial : σ} (shownFirst : shown initial = ∅)
    (settledFirst : settled initial = ∅) {ops : List Operation}
    (mine : ops.filter (·.rank = rank) = msgs.map (.served rank)) :
    Stands n alwaysFlush rank (shown (served n store alwaysFlush initial ops).1)
      (settled (served n store alwaysFlush initial ops).1)
      msgs (outputsOf rank (served n store alwaysFlush initial ops).2) := by
  induction ops using List.reverseRecOn generalizing msgs with
  | nil =>
    obtain rfl : msgs = [] := by simpa using mine.symm
    have first : served n store alwaysFlush initial [] = (initial, []) := rfl
    rw [first, shownFirst, settledFirst]
    exact ⟨fun _ _ => rfl, 0, 0, .start, le_rfl, le_rfl, le_rfl, fun _ _ => rfl⟩
  | append_singleton ops op ih =>
    rw [List.filter_append] at mine
    rw [served_concat]
    by_cases here : op.rank = rank
    · obtain ⟨earlier, last, rfl, front, back⟩ := List.map_eq_append_iff.mp mine.symm
      have single : [op].filter (·.rank = rank) = [op] := by simp [here]
      rw [single] at back
      obtain ⟨msg, rest, rfl, rfl, none⟩ := List.map_eq_cons_iff.mp back
      obtain rfl : rest = [] := List.map_eq_nil_iff.mp none
      have reply := outputsOf_append_own rank (served n store alwaysFlush initial ops).2
        (act n store alwaysFlush (.served rank msg) (served n store alwaysFlush initial ops).1).2.toList
      rw [Operation.rank, reply]
      exact (ih front.symm).own deferring msg
    · have none : [op].filter (·.rank = rank) = [] := by simp [here]
      rw [none, List.append_nil] at mine
      rw [outputsOf_append_other here]
      exact (ih mine).other deferring here

end Stands

section Runs

variable [NeZero n] {σ : Type*} {store : LSMIOStore σ} {shown settled : σ → StoreMap} {alwaysFlush : Bool}
variable {scripts : Fin n → List Command} {own : List (Command × Bool)} {initial : σ} {trace : List (Event n)}
    {s : State σ n}

/-- Every client of a run stands as its executed messages say. -/
theorem stands_of_run (deferring : store.Deferring shown settled) (shownFirst : shown initial = ∅)
    (settledFirst : settled initial = ∅)
    (run : Run (State.Next store alwaysFlush) (State.init scripts own initial) trace s) (i : Fin n) :
    Stands n alwaysFlush (rank i) (shown s.store) (settled s.store) (executed i trace)
      (due store alwaysFlush initial i trace) := by
  rw [store_eq_serve run]
  exact Stands.of_operations deferring shownFirst settledFirst (filter_operations i trace)

/-- The replies that a client has taken are the first of those due to it. -/
theorem taken_prefix_due (run : Run (State.Next store alwaysFlush) (State.init scripts own initial) trace s)
    (i : Fin n) :
    taken i trace <+: due store alwaysFlush initial i trace := by
  obtain ⟨_, _, back, tracks⟩ := tracks_of_run run i
  exact ⟨back, tracks.replies⟩

end Runs

/-- The collective run over LevelDB, whatever its limits: what `close` leaves of
a client's keys is what the client's operations, in the order sent, leave alone; its replies lag
behind them, and do not where every mutation flushes. -/
theorem levelDb_execution {n : Nat} [NeZero n] (maxBatchSize maxBatchBytes : Int) (alwaysFlush : Bool)
    (scripts : Fin n → List Command) (own : List (Command × Bool))
    (plain : ∀ i, ∀ c ∈ scripts i, Plain c.message.key) {trace : List (Event n)} {s : State StoreLDB n}
    (run : Run (State.Next StoreLDB.store alwaysFlush)
      (State.init scripts own (.openStore maxBatchSize maxBatchBytes ∅)) trace s)
    (i : Fin n) : executed i trace <+: (sent i trace).map Command.message ∧
      SameTo (rank i) (s.store.close true).db (alone n alwaysFlush (rank i) (executed i trace)).1 ∧
      ∃ seen replies, Lagged n alwaysFlush (rank i) (executed i trace) seen replies ∧ taken i trace <+: replies ∧
        (alwaysFlush = true → replies = (alone n alwaysFlush (rank i) (executed i trace)).2) := by
  have stands := stands_of_run StoreLDB.deferring rfl rfl run i
  obtain ⟨last, seen, lagged, -⟩ := stands.shown
  refine ⟨executed_prefix_sent run plain i, ?_, last, _, lagged, taken_prefix_due run i, ?_⟩
  · rw [StoreLDB.close, StoreLDB.writeBarrier, s.store.stopBatch_settles.2]
    exact stands.settled
  · rintro rfl
    exact lagged.eq_alone

/-- A put that is deferred: the client's `get` behind it finds nothing, and `close` writes it. -/
theorem levelDb_execution_deferred : ∃ s : State StoreLDB 1, s.store.db = ∅ ∧
    (∃ replies, [⟨KV_CMD_RETURN.GET, [107], []⟩] <+: replies ∧
      ∃ seen, Lagged 1 false 1 [⟨KV_CMD.PUT, [107], [7]⟩, ⟨KV_CMD.GET, [107], KV_DUMMY⟩] seen replies) ∧
    (s.store.close true).db[(manager 1).rankedKey 1 [107]]? = some [7] := by
  obtain ⟨s, run, deferred⟩ : ∃ s : State StoreLDB 1, Run (Allowed (State.step StoreLDB.store false) fun _ _ => True)
      (State.init (fun _ => [.put [107] [7], .get [107]]) [] (.openStore 512 1000 ∅))
      [.send 0 (.put [107] [7]), .loop, .recv 0, .handle 0 ⟨KV_CMD.PUT, [107], [7]⟩, .send 0 (.get [107]), .loop,
        .recv 0, .handle 0 ⟨KV_CMD.GET, [107], KV_DUMMY⟩, .reply 0 ⟨KV_CMD_RETURN.GET, [107], []⟩] s ∧
      s.store.db = ∅ :=
    Run.exists_of_any (by decide +kernel)
  have plain : ∀ i : Fin 1, ∀ c ∈ [Command.put [107] [7], .get [107]], Plain c.message.key := by decide
  obtain ⟨-, closed, seen, replies, lagged, taken, -⟩ :=
    levelDb_execution 512 1000 false (fun _ : Fin 1 => [.put [107] [7], .get [107]])
    [] plain (run.mono fun _ _ _ allowed => allowed.2) 0
  exact ⟨s, deferred, ⟨replies, taken, seen, lagged⟩, (closed _ (inNamespace_rankedKey _ _)).trans (by decide +kernel)⟩

/-- A store that defers nothing serves like the map. -/
theorem served_of_prompt {σ : Type*} {store : LSMIOStore σ} {settled : σ → StoreMap}
    (prompt : store.Deferring settled settled) (n : Nat) (alwaysFlush : Bool) (initial : σ) (ops : List Operation) :
    settled (served n store alwaysFlush initial ops).1 = (served n .ofMap alwaysFlush (settled initial) ops).1 ∧
      (served n store alwaysFlush initial ops).2 = (served n .ofMap alwaysFlush (settled initial) ops).2 := by
  induction ops using List.reverseRecOn with
  | nil => exact ⟨rfl, rfl⟩
  | append_singleton ops op ih =>
    obtain ⟨same, replies⟩ := ih
    obtain ⟨settles, reply⟩ := act_deferring (n := n) prompt alwaysFlush op (served n store alwaysFlush initial ops).1
    rw [served_concat, served_concat, settles, reply, same, replies]
    exact ⟨rfl, rfl⟩

/-- Over RocksDB a client gets at once what its operations give alone. -/
theorem rocksDb_execution {n : Nat} [NeZero n] {alwaysFlush : Bool} {scripts : Fin n → List Command}
    {own : List (Command × Bool)} {trace : List (Event n)} {s : State StoreRDB n}
    (run : Run (State.Next StoreRDB.store alwaysFlush) (State.init scripts own ⟨∅⟩) trace s) (i : Fin n) :
    SameTo (rank i) s.store.db (alone n alwaysFlush (rank i) (executed i trace)).1 ∧
      taken i trace <+: (alone n alwaysFlush (rank i) (executed i trace)).2 := by
  obtain ⟨same, replies⟩ := served_of_prompt StoreRDB.deferring n alwaysFlush ⟨∅⟩ (operations trace)
  have purged := (isolated (n := n) alwaysFlush).serve_filter (rank i) ∅ (operations trace)
  rw [filter_operations] at purged
  have given := taken_prefix_due run i
  rw [due, replies] at given
  refine ⟨?_, given.trans (purged.2 ▸ List.prefix_refl _)⟩
  rw [store_eq_serve run, same]
  exact purged.1

end Collective

end LSMIO
