import LSMIO.StoreInvariant

namespace LSMIO

/-- What a get shows after a mutation: the value put, and nothing after a deletion. -/
def Call.shown : Call → Option Value
  | .put _ value _ => some value
  | _ => none

/-- The stored lengths fit 32 bits and the value put is not the tombstone. -/
def Call.Plain : Call → Prop
  | .put key value _ => Short (key, value) ∧ value ≠ MEMTABLE_TOMBSTONE
  | .del key _ => key.length < 2 ^ 32
  | _ => True

def Event.Plain : Event → Prop
  | .ret _ c _ => c.Plain
  | _ => True

instance : DecidablePred Call.Plain
  | .put key value _ => inferInstanceAs (Decidable (Short (key, value) ∧ value ≠ MEMTABLE_TOMBSTONE))
  | .del key _ => inferInstanceAs (Decidable (key.length < 2 ^ 32))
  | .get _ | .writeBarrier => .isTrue trivial

instance : DecidablePred Event.Plain
  | .ret _ c _ => inferInstanceAs (Decidable c.Plain)
  | .call .. | .backpressure _ | .searched _ | .pushed _ | .flush _ | .pool _ | .close _ | .joined | .drain
  | .closed => .isTrue trivial

theorem Call.Plain.short {c : Call} (plain : c.Plain) {entry : Key × Value} (isMutation : c.mutation = some entry) :
    Short entry := by
  cases c with
  | put key value flush =>
    cases isMutation
    exact plain.1
  | del key flush =>
    cases isMutation
    exact ⟨plain, (by decide : MEMTABLE_TOMBSTONE.length < 2 ^ 32)⟩
  | get key => cases isMutation
  | writeBarrier => cases isMutation

theorem Call.Plain.visible_eq {c : Call} (plain : c.Plain) {key : Key} {stored : Value}
    (isMutation : c.mutation = some (key, stored)) : visible (some stored) = c.shown := by
  cases c with
  | put key value flush =>
    cases isMutation
    simp [visible_some, shown, plain.2]
  | del key flush =>
    cases isMutation
    simp [visible_some, shown]
  | get key => cases isMutation
  | writeBarrier => cases isMutation

theorem Event.Plain.short {e : Event} (plain : e.Plain) {entry : Key × Value} (isMutation : e.mutation = some entry) :
    Short entry := by
  cases e with
  | ret t c r => exact Call.Plain.short plain isMutation
  | _ => cases isMutation

/-- The thread that calls a mutation with an event. -/
def Event.mutator : Event → Option Tid
  | .call t c => if c.mutation.isSome then some t else none
  | _ => none

/-- No mutation of a key is called. -/
def Uncalled (key : Key) (trace : List Event) : Prop :=
  ∀ t c, .call t c ∈ trace → ∀ value, c.mutation ≠ some (key, value)

namespace State

/-- In every run with allowed steps, a get that begins after a mutation of its
key has returned shows this mutation, as long as no other mutation of the key
is called before the get returns. -/
def ReadYourWrites (ok : State → Event → Prop) : Prop :=
  ∀ (cfg : Config) (dir : Directory) (entries : List (FileName × Bytes)) (before since during : List Event)
    (u t : Tid) (c : Call) (key : Key) (stored : Value) (r : Result) (s : State),
    Run (Allowed (step cfg) ok) (openStore cfg dir entries)
      (before ++ [.ret u c (.bool true)] ++ since ++ [.call t (.get key)] ++ during ++ [.ret t (.get key) r]) s →
    c.mutation = some (key, stored) →
    Uncalled key (since ++ during) →
    r = .value c.shown

/-- A thread is between the call and the return of a mutation of a key. -/
def Mutating (s : State) (t : Tid) (key : Key) : Prop :=
  ∃ c value, (s.pcs t).carried = some c ∧ c.mutation = some (key, value)

/-- When a mutation returns, no other thread is within a mutation of its key. -/
def Unoverlapped (s : State) : Event → Prop
  | .ret u c _ => ∀ key value, c.mutation = some (key, value) → ∀ t, t ≠ u → ¬ s.Mutating t key
  | _ => True

/-- No search of the tables is made for a key with an entry in the flush's
hands, popped from the queue and not yet published. -/
def SearchClear (s : State) : Event → Prop
  | .ret t (.get key) _ => s.pcs t = .missed key → lastValue s.hand.data key = none
  | _ => True

instance : DecidableRel SearchClear
  | s, .ret t (.get key) _ => inferInstanceAs (Decidable (s.pcs t = .missed key → lastValue s.hand.data key = none))
  | _, .ret _ (.put ..) _ | _, .ret _ (.del ..) _ | _, .ret _ .writeBarrier _ | _, .call .. | _, .backpressure _
  | _, .searched _ | _, .pushed _ | _, .flush _ | _, .pool _ | _, .close _ | _, .joined | _, .drain
  | _, .closed => .isTrue trivial

variable {cfg : Config} {ok : State → Event → Prop}

/-- A thread within a mutation was so before the step, or calls it with the step. -/
theorem Mutating.of_step {s s' : State} {e : Event} {t : Tid} {key : Key} (inside : s'.Mutating t key)
    (taken : step cfg s e = some s') :
    s.Mutating t key ∨ ∃ c value, e = .call t c ∧ c.mutation = some (key, value) := by
  obtain ⟨c, value, carried, isMutation⟩ := inside
  obtain ⟨u, pc, pcs, origin⟩ := step_thread taken
  rw [pcs, Function.update_apply] at carried
  split at carried
  next here =>
    subst here
    exact (origin c carried).imp (fun earlier => ⟨c, value, earlier, isMutation⟩) fun called =>
      ⟨c, value, called, isMutation⟩
  next => exact .inl ⟨c, value, carried, isMutation⟩

/-- The thread that returns from a mutation is within it. -/
theorem mutating_of_return {s s' : State} {t : Tid} {c : Call} {r : Result} {key : Key} {value : Value}
    (returned : ReturnStep cfg s t c r s') (isMutation : c.mutation = some (key, value)) : s.Mutating t key :=
  ⟨c, value, (returned.carried isMutation).1, isMutation⟩

/-- While no mutation of a key is called, only threads already within one can land one. -/
theorem untouched_of_uncalled {first s : State} {trace : List Event} {key : Key}
    (run : Run (Allowed (step cfg) ok) first trace s) (outside : ∀ t, ¬ first.Mutating t key)
    (uncalled : Uncalled key trace) :
    (∀ t, ¬ s.Mutating t key) ∧ ∀ value, (key, value) ∉ mutations trace := by
  revert uncalled
  refine run.invariant (P := fun trace s => Uncalled key trace →
    (∀ t, ¬ s.Mutating t key) ∧ ∀ value, (key, value) ∉ mutations trace) (fun _ => ⟨outside, by simp⟩) ?_
  rintro trace s e s' - before ⟨-, taken⟩ uncalled
  obtain ⟨outside, untouched⟩ := before fun t c called => uncalled t c (List.mem_append_left _ called)
  constructor
  · intro t inside
    rcases inside.of_step taken with earlier | ⟨c, value, rfl, isMutation⟩
    · exact outside t earlier
    · exact uncalled t c (by simp) value isMutation
  · intro value landed
    rw [mutations_append, mutations_singleton, List.mem_append] at landed
    rcases landed with earlier | now
    · exact untouched value earlier
    · cases step_cases taken with
      | @ret t c r _ _ returned =>
        have isMutation : c.mutation = some (key, value) := by simpa [Event.mutation] using now
        exact outside t (mutating_of_return returned isMutation)
      | _ => simp [Event.mutation] at now

/-- After a mutation that no other overlaps has returned, no thread is within one of its key. -/
theorem Unoverlapped.outside {s s' : State} {u : Tid} {c : Call} {key : Key} {stored : Value} {r : Result}
    (alone : s.Unoverlapped (.ret u c r)) (isMutation : c.mutation = some (key, stored))
    (taken : step cfg s (.ret u c r) = some s') (t : Tid) : ¬ s'.Mutating t key := by
  rintro ⟨other, value, carried, same⟩
  cases step_cases taken with
  | ret _ returned =>
    rw [(returned.carried isMutation).2, Function.update_apply] at carried
    split at carried
    next => cases carried
    next elsewhere => exact alone key stored isMutation t elsewhere ⟨other, value, carried, same⟩

/-- A thread that missed in the memtables would still miss there, as long as no mutation of its key lands. -/
theorem missed_absent {first s : State} {trace : List Event} {t : Tid} {key : Key}
    (intact : ∀ s e, ok s e → e.intact = true) (run : Run (Allowed (step cfg) ok) first trace s)
    (outside : first.pcs t ≠ .missed key) (untouched : ∀ value, (key, value) ∉ mutations trace)
    (missed : s.pcs t = .missed key) : s.memtableGet key = none := by
  revert untouched missed
  refine run.invariant (P := fun trace s => (∀ value, (key, value) ∉ mutations trace) → s.pcs t = .missed key →
    s.memtableGet key = none) (fun _ missed => absurd missed outside) ?_
  rintro trace s e s' - before ⟨allowed, taken⟩ untouched missed
  rw [mutations_append, mutations_singleton] at untouched
  cases step_pcs taken t with
  | same kept =>
    have absent := before (fun value member => untouched value (List.mem_append_left _ member)) (kept ▸ missed)
    rw [memtableGet_eq, lastValue_eq_none_iff] at absent ⊢
    intro value member
    have moved := (step_effect taken (intact s e allowed)).memData_suffix.mem member
    rcases List.mem_append.mp moved with old | new
    · exact absent value old
    · exact untouched value (List.mem_append_right _ new)
  | missed k now absent =>
    cases now.symm.trans missed
    exact absent
  | idle now => cases now.symm.trans missed
  | entered c now => cases now.symm.trans missed
  | backpressure c now => cases now.symm.trans missed
  | waiting now drained => cases now.symm.trans missed

/-- A get at its return: it shows the last mutation of its key, or what was there before, unless the mutation is
in the flush's hands alone; then it shows the last of those published. -/
theorem Inv.get_returns {first s s' : State} {trace : List Event} {flushed : Flushed} {t : Tid} {key : Key} {r : Result}
    (inv : Inv first trace s flushed) (short : ∀ entry ∈ mutations trace, Short entry)
    (absent : s.pcs t = .missed key → s.memtableGet key = none) (returns : s.stepRet cfg t (.get key) r = some s') :
    (s.SearchClear (.ret t (.get key) r) → r = .value (visible
      ((lastValue (mutations trace) key).or (SSTableManager.get (readValueAt s.dir) first.head key)))) ∧
    (¬ s.SearchClear (.ret t (.get key) r) → r = .value (visible
      ((lastValue flushed.log key).or (SSTableManager.get (readValueAt s.dir) first.head key)))) := by
  have places : lastValue (mutations trace) key =
      ((s.memtableGet key).or (lastValue s.hand.data key)).or (lastValue flushed.log key) := by
    rw [inv.log, pending, lastValue_append, lastValue_append, ← memtableGet_eq]
  rcases (stepRet_get returns).2 with ⟨entered, found, inMemory, result⟩ | ⟨missed, result⟩
  · refine ⟨fun _ => ?_, fun held => absurd (fun missed => ?_) held⟩
    · rw [result, places, inMemory, Option.some_or, Option.some_or, Option.some_or]
    · cases entered.symm.trans missed
  · rw [absent missed, Option.none_or] at places
    refine ⟨fun clear => ?_, fun _ => by rw [result, inv.sstableGet_eq short]⟩
    have notHeld : lastValue s.hand.data key = none := clear missed
    rw [result, inv.sstableGet_eq short, places, notHeld, Option.none_or]

/-- Reads follow the writes in every run in which no table search is made for
a key that the flush thread is holding, and no mutation returns while another
thread is within a mutation of its key. -/
theorem readYourWrites_of_searchClear
    (clear : ∀ s e, ok s e → e.Plain ∧ e.intact = true ∧ s.SearchClear e ∧ s.Unoverlapped e) : ReadYourWrites ok := by
  intro cfg dir entries before since during u t c key stored r s run isMutation uncalled
  have intact : ∀ s e, ok s e → e.intact = true := fun s e allowed => (clear s e allowed).2.1
  have short : ∀ s e, ok s e → ∀ entry ∈ e.mutation, Short entry := fun s e allowed _ member =>
    (clear s e allowed).1.short member
  obtain ⟨s, front, allowed, taken⟩ := run.snoc_inv
  obtain ⟨flushed, inv⟩ := Inv.of_run intact front
  obtain ⟨called, upToCall, back⟩ := front.split
  obtain ⟨_, beforeCall, calling⟩ := upToCall.snoc_inv
  obtain ⟨written, upToReturn, between⟩ := beforeCall.split
  obtain ⟨_, -, returned, returning⟩ := upToReturn.snoc_inv
  -- The return leaves no thread within a mutation of the key, and none is called from there on.
  have landed : ∀ value, (key, value) ∉ mutations (since ++ [.call t (.get key)] ++ during) := by
    refine (untouched_of_uncalled ((between.step calling).append back)
      ((clear _ _ returned).2.2.2.outside isMutation returning) ?_).2
    intro v other member
    have origin : .call v other ∈ since ++ during ∨ v = t ∧ other = .get key := by
      simpa [or_assoc, or_comm, or_left_comm] using member
    rcases origin with tail | ⟨-, rfl⟩
    · exact uncalled v other tail
    · exact fun _ none => by cases none
  have absent := missed_absent intact back (not_missed_of_call calling.2 key) fun value member =>
    landed value (by rw [mutations_append]; exact List.mem_append_right _ member)
  have last : lastValue (mutations (before ++ [.ret u c (.bool true)] ++ since ++ [.call t (.get key)] ++ during)) key =
      some stored := by
    have later : lastValue (mutations (since ++ [.call t (.get key)] ++ during)) key = none :=
      lastValue_eq_none_iff.mpr landed
    rw [List.append_assoc _ [_] during, List.append_assoc _ since, ← List.append_assoc since, mutations_append,
      lastValue_append, later, Option.none_or, mutations_append, lastValue_append, mutations_singleton]
    simp [Event.mutation, isMutation, lastValue]
  rw [(inv.get_returns (mutations_short short front) absent (stepRet_of_step taken)).1 (clear _ _ allowed).2.2.1, last,
    Option.some_or]
  exact congrArg Result.value (Call.Plain.visible_eq (clear _ _ returned).1 isMutation)

/-- Where only one thread calls mutations, none overlaps another. -/
theorem unoverlapped_of_single {first s : State} {trace : List Event} {u : Tid}
    (run : Run (Allowed (step cfg) ok) first trace s) (idle : ∀ t, (first.pcs t).carried = none)
    (single : ∀ e ∈ trace, ∀ t ∈ e.mutator, t = u) :
    Run (Allowed (step cfg) fun s e => ok s e ∧ s.Unoverlapped e) first trace s := by
  suffices both : Run (Allowed (step cfg) fun s e => ok s e ∧ s.Unoverlapped e) first trace s ∧
      ∀ t key, s.Mutating t key → t = u from both.1
  revert single
  refine run.invariant (P := fun trace s => (∀ e ∈ trace, ∀ t ∈ e.mutator, t = u) →
    Run (Allowed (step cfg) fun s e => ok s e ∧ s.Unoverlapped e) first trace s ∧ ∀ t key, s.Mutating t key → t = u)
    (fun _ => ⟨.start, fun t key inside => ?_⟩) ?_
  · obtain ⟨c, value, carried, -⟩ := inside
    rw [idle] at carried
    cases carried
  rintro trace s e s' - before ⟨allowed, taken⟩ single
  obtain ⟨run, within⟩ := before fun e member => single e (List.mem_append_left _ member)
  refine ⟨.step run ⟨⟨allowed, ?_⟩, taken⟩, ?_⟩
  · cases step_cases taken with
    | @ret v c r _ _ returned =>
      intro key value isMutation t elsewhere inside
      have own := within v key (mutating_of_return returned isMutation)
      exact elsewhere ((within t key inside).trans own.symm)
    | _ => trivial
  · intro t key inside
    rcases inside.of_step taken with earlier | ⟨c, value, rfl, isMutation⟩
    · exact within t key earlier
    · exact single (.call t c) (by simp) t (by simp [Event.mutator, isMutation])

/-- A trace of one mutating thread whose evaluation succeeds is a run in which no mutation overlaps another. -/
theorem exists_unoverlapped [DecidableRel ok] {first : State} {trace : List Event} {u : Tid}
    (eval : (trace.foldlM (guarded (step cfg) ok) first).any fun _ => true) (idle : ∀ t, (first.pcs t).carried = none)
    (single : ∀ e ∈ trace, ∀ t ∈ e.mutator, t = u) :
    ∃ s, Run (Allowed (step cfg) fun s e => ok s e ∧ s.Unoverlapped e) first trace s := by
  obtain ⟨s, run, -⟩ := Run.exists_of_any (P := fun _ => True) (by simpa using eval)
  exact ⟨s, unoverlapped_of_single run idle single⟩

/-- A put is flushed, published and read back from its file. -/
theorem readYourWrites_published : ∃ s, Run (Allowed (step ⟨100, 4, 2, 0⟩)
      fun s e => (e.Plain ∧ e.intact = true ∧ s.SearchClear e) ∧ s.Unoverlapped e) (openStore ⟨100, 4, 2, 0⟩ ∅ [])
      ([Event.call 0 (.put [1] [7] false)] ++ [Event.ret 0 (.put [1] [7] false) (.bool true)] ++
        [Event.pool .check, .pool (.create true true), .pool .insert, .call 1 .writeBarrier, .pushed 1, .flush .pop,
          .flush (.acquire true), .flush (.write none), .flush .publish] ++
        [Event.call 0 (.get [1])] ++ [Event.searched 0] ++ [Event.ret 0 (.get [1]) (.value (some [7]))]) s ∧
    Result.value (some [7]) = .value (Call.put [1] [7] false).shown := by
  refine Exists.imp (fun s run => ⟨run, ?_⟩) (exists_unoverlapped (u := 0) ?_ (fun _ => rfl) (by decide))
  · exact readYourWrites_of_searchClear (fun _ _ allowed => ⟨allowed.1.1, allowed.1.2.1, allowed.1.2.2, allowed.2⟩)
      _ _ _ _ _ _ _ _ _ _ _ _ _ run rfl (by simp [Uncalled, Call.mutation])
  · decide +kernel

/-- A put is flushed while another thread waits at a barrier; the get comes
to the tables after the memtable left the queue and before its file is published. -/
theorem not_readYourWrites : ¬ ReadYourWrites fun _ e => e.Plain ∧ e.intact = true := by
  intro always
  obtain ⟨s, run, -⟩ : ∃ s, Run (Allowed (step ⟨100, 4, 2, 0⟩) fun _ e => e.Plain ∧ e.intact = true)
      (openStore ⟨100, 4, 2, 0⟩ ∅ [])
        ([Event.call 0 (.put [1] [7] false)] ++ [Event.ret 0 (.put [1] [7] false) (.bool true)] ++
        [Event.call 1 .writeBarrier, .pushed 1, .flush .pop] ++ [Event.call 0 (.get [1])] ++ [Event.searched 0] ++
        [Event.ret 0 (.get [1]) (.value none)]) s ∧ True :=
    Run.exists_of_any (by decide +kernel)
  have shown := always _ _ _ _ _ _ _ _ _ _ _ _ _ run rfl (by simp [Uncalled, Call.mutation])
  cases shown

/-- Of two puts that overlap, the one that was called first returns last and hides the other. -/
theorem not_readYourWrites_overlapping : ¬ ReadYourWrites fun s e => e.Plain ∧ e.intact = true ∧ s.SearchClear e := by
  intro always
  obtain ⟨s, run, -⟩ : ∃ s, Run (Allowed (step ⟨100, 4, 2, 0⟩) fun s e => e.Plain ∧ e.intact = true ∧ s.SearchClear e)
      (openStore ⟨100, 4, 2, 0⟩ ∅ []) ([Event.call 1 (.put [1] [8] false), .call 0 (.put [1] [7] false)] ++
        [Event.ret 0 (.put [1] [7] false) (.bool true)] ++ [Event.ret 1 (.put [1] [8] false) (.bool true)] ++
        [Event.call 0 (.get [1])] ++ [] ++ [Event.ret 0 (.get [1]) (.value (some [8]))]) s ∧ True :=
    Run.exists_of_any (by decide +kernel)
  have shown := always _ _ _ _ _ _ _ _ _ _ _ _ _ run rfl (by simp [Uncalled])
  cases shown

end State

end LSMIO
