import LSMIO.StepCases

namespace LSMIO

/-- The mutation that lands with an event: a mutation returns at the end of its critical section. -/
def Event.mutation : Event → Option (Key × Value)
  | .ret _ c _ => c.mutation
  | _ => none

/-- The mutations of a run, oldest first. -/
def mutations (trace : List Event) : List (Key × Value) := trace.filterMap Event.mutation

/-- No flush loses its memtable: the stream acquired is good, every write
goes through, and nothing is thrown. -/
def Event.intact : Event → Bool
  | .flush (.acquire good) => good
  | .flush (.write fault) => fault.isNone
  | .flush .threw => false
  | _ => true

@[simp] theorem mutations_nil : mutations [] = [] := rfl

@[simp] theorem mutations_append (earlier later : List Event) :
    mutations (earlier ++ later) = mutations earlier ++ mutations later := List.filterMap_append

theorem mutations_singleton (e : Event) : mutations [e] = e.mutation.toList := by
  rw [mutations, List.filterMap_cons]
  cases e.mutation <;> rfl

/-- The call whose critical section a thread has not yet left. -/
def Pc.carried : Pc → Option Call
  | .entered c | .backpressure c => some c
  | _ => none

namespace Hand

/-- The entries a flush holds, in neither the queue nor the list of tables. -/
def data : Hand → List (Key × Value)
  | .taken m | .acquired m _ | .written m _ _ => m.data
  | .idle | .finished => []

/-- The id of the file a flush has taken from the pool. -/
def ids : Hand → List Nat
  | .acquired _ id | .written _ id _ => [id]
  | .idle | .taken _ | .finished => []

end Hand

namespace State

/-- The entries in the memtables of the store, oldest first. -/
def memData (s : State) : List (Key × Value) := (s.immutables.map (·.data)).flatten ++ s.active.data

/-- The entries in no table, oldest first. -/
def pending (s : State) : List (Key × Value) := s.hand.data ++ s.memData

@[simp] theorem memData_setPc (s : State) (t : Tid) (pc : Pc) : (s.setPc t pc).memData = s.memData := rfl

@[simp] theorem memData_rotate (s : State) : s.rotate.memData = s.memData := by
  simp [memData, rotate]

@[simp] theorem memData_addActive (s : State) (key : Key) (value : Value) :
    (s.addActive key value).memData = s.memData ++ [(key, value)] := by
  simp [memData, addActive]

@[simp] theorem memData_rotateUnlessEmpty (s : State) :
    (if s.active.empty then s else s.rotate).memData = s.memData := by
  split <;> simp

theorem active_rotateUnlessEmpty (s : State) : (if s.active.empty then s else s.rotate).active.data = [] := by
  split
  next empty => exact (Memtable.empty_iff _).mp empty
  next => rfl

/-- The memtables answer with the last entry they hold. -/
theorem memtableGet_eq (s : State) (key : Key) : s.memtableGet key = lastValue s.memData key := by
  have queue : ∀ tables : List Memtable,
      tables.reverse.findSome? (fun m => m.get key) = lastValue (tables.map (·.data)).flatten key := by
    intro tables
    induction tables with
    | nil => rfl
    | cons m tables ih =>
      rw [List.reverse_cons, List.findSome?_append, ih, List.map_cons, List.flatten_cons, lastValue_append,
        ← Memtable.get_eq_lastValue]
      simp
  rw [memData, lastValue_append, ← queue, ← Memtable.get_eq_lastValue, memtableGet, List.findSome?_cons]
  cases s.active.get key <;> rfl

/-- The memtables of the store are the same. -/
structure SameMemory (s s' : State) : Prop where
  immutables : s'.immutables = s.immutables
  active : s'.active = s.active

theorem SameMemory.memData {s s' : State} (same : SameMemory s s') : s'.memData = s.memData := by
  rw [State.memData, State.memData, same.immutables, same.active]

/-- A step that leaves the files, the list of tables and the file of the flush alone. -/
structure MemoryStep (s : State) (e : Event) (s' : State) : Prop where
  dir : s'.dir = s.dir
  pool : s'.pool = s.pool
  head : s'.head = s.head
  hand : s'.hand = s.hand ∨ s.hand.ids = [] ∧ s'.hand.ids = []
  pending : s'.pending = s.pending ++ e.mutation.toList
  memData : s'.memData <:+ s.memData ++ e.mutation.toList
  active : s'.active.data <:+ s.active.data ++ e.mutation.toList

/-- The flush takes the front file of the pool. -/
structure AcquireStep (s : State) (m : Memtable) (id : Nat) (s' : State) : Prop where
  taken : s.hand = .taken m
  front : s.pool.acquire = some (id, s'.pool)
  dir : s'.dir = s.dir
  head : s'.head = s.head
  hand : s'.hand = .acquired m id
  memory : SameMemory s s'

/-- The flush writes all records and builds the index. -/
structure WriteStep (s : State) (m : Memtable) (id : Nat) (s' : State) : Prop where
  acquired : s.hand = .acquired m id
  pool : s'.pool = s.pool
  head : s'.head = s.head
  dir : s'.dir = s.dir.insert (fileName id)
    (encodeRecords m.data ++ (s.dir[fileName id]?.getD []).drop (encodeRecords m.data).length)
  hand : s'.hand = .written m id (tableOf (fileName id) m.data)
  memory : SameMemory s s'

/-- The flush links its node in front of the list. -/
structure PublishStep (s : State) (m : Memtable) (id : Nat) (index : L0Index) (s' : State) : Prop where
  written : s.hand = .written m id index
  dir : s'.dir = s.dir
  pool : s'.pool = s.pool
  head : s'.head = index :: s.head
  hand : s'.hand = .finished
  memory : SameMemory s s'

/-- The worker of the pool takes a step. -/
structure PoolStep (s : State) (event : PoolEvent) (s' : State) : Prop where
  replenished : s.pool.replenish s.dir event = some (s'.pool, s'.dir)
  head : s'.head = s.head
  hand : s'.hand = s.hand
  memory : SameMemory s s'

/-- What a step does to the entries in memory and to the files, when no flush loses its memtable. -/
inductive Effect (s : State) (e : Event) (s' : State) : Prop
  | memory (done : MemoryStep s e s')
  | acquired {m : Memtable} {id : Nat} (silent : e.mutation = none) (done : AcquireStep s m id s')
  | written {m : Memtable} {id : Nat} (silent : e.mutation = none) (done : WriteStep s m id s')
  | published {m : Memtable} {id : Nat} {index : L0Index} (silent : e.mutation = none)
      (done : PublishStep s m id index s')
  | pooled {event : PoolEvent} (same : e = .pool event) (done : PoolStep s event s')

/-- The steps of clients move entries within the memtables and append those that land. -/
structure ClientStep (s : State) (e : Event) (s' : State) : Prop where
  dir : s'.dir = s.dir
  pool : s'.pool = s.pool
  head : s'.head = s.head
  hand : s'.hand = s.hand
  memData : s'.memData = s.memData ++ e.mutation.toList
  active : s'.active.data <:+ s.active.data ++ e.mutation.toList

theorem ClientStep.effect {s s' : State} {e : Event} (client : ClientStep s e s') : Effect s e s' := by
  refine .memory ⟨client.dir, client.pool, client.head, .inl client.hand, ?_, client.memData ▸ List.suffix_refl _,
    client.active⟩
  rw [pending, client.memData, client.hand, ← List.append_assoc]
  rfl

variable {cfg : Config} {s s' : State}

/-- A `get` returns what it found in the memtables, or else what the tables answer when it comes to them. -/
theorem stepRet_get {t : Tid} {key : Key} {r : Result} (done : s.stepRet cfg t (.get key) r = some s') :
    s' = s.setPc t .idle ∧
      ((s.pcs t = .entered (.get key) ∧ ∃ stored, s.memtableGet key = some stored ∧
        r = .value (visible (some stored))) ∨
        s.pcs t = .missed key ∧ r = .value (visible (s.sstableGet key))) := by
  cases stepRet_cases done with
  | added _ entry => cases entry
  | rotated _ entry => cases entry
  | found entered inMemory => exact ⟨rfl, .inl ⟨entered, _, inMemory, rfl⟩⟩
  | answered missed => exact ⟨rfl, .inr ⟨missed, rfl⟩⟩

/-- A barrier returns `true`, with the queue empty and no flush in progress. -/
theorem stepRet_writeBarrier {t : Tid} {r : Result} (done : s.stepRet cfg t .writeBarrier r = some s') :
    s' = s.setPc t .idle ∧ s.pcs t = .waiting ∧ r = .bool true ∧ s.immutables = [] ∧ s.flushInProgress = false := by
  cases stepRet_cases done with
  | added _ entry => cases entry
  | rotated _ entry => cases entry
  | passed waiting drained quiet => exact ⟨rfl, waiting, rfl, drained, quiet⟩

theorem ReturnStep.client {t : Tid} {c : Call} {r : Result} (returned : ReturnStep cfg s t c r s') :
    ClientStep s (.ret t c r) s' := by
  cases returned with
  | added _ entry =>
    exact ⟨rfl, rfl, rfl, rfl, by simp [Event.mutation, entry], by simp [Event.mutation, entry, setPc, addActive]⟩
  | rotated _ entry =>
    exact ⟨rfl, rfl, rfl, rfl, by simp [Event.mutation, entry],
      by simp [Event.mutation, entry, setPc, addActive, rotate, List.suffix_append]⟩
  | found | answered | passed =>
    exact ⟨rfl, rfl, rfl, rfl, by simp [Event.mutation, Call.mutation], by simp [Event.mutation, Call.mutation, setPc]⟩

/-- With every write going through, the file gets the records and the index is that of their offsets. -/
theorem writeStep_step (done : s.stepFlush (.write none) = some s') : ∃ m id, WriteStep s m id s' := by
  cases stepFlush_cases done with
  | @write m id _ acquired =>
    have records := writeRecords_intact [] (s.dir[fileName id]?.getD []) m.data
    simp only [List.nil_append, List.length_nil] at records
    rw [OStream.opened, records]
    exact ⟨m, id, acquired, rfl, rfl, rfl, rfl, ⟨rfl, rfl⟩⟩

theorem effect_flush {event : FlushEvent} (done : s.stepFlush event = some s')
    (intact : (Event.flush event).intact = true) : Effect s (.flush event) s' := by
  cases stepFlush_cases done with
  | pop idle queue =>
    refine .memory ⟨rfl, rfl, rfl, (.inr ⟨by rw [idle]; rfl, rfl⟩), ?_, ?_, by simp [Event.mutation]⟩
    · simp [pending, memData, idle, queue, Hand.data, Event.mutation]
    · simp [memData, queue, Event.mutation]
  | @skip m taken empty =>
    refine .memory ⟨rfl, rfl, rfl, (.inr ⟨by rw [taken]; rfl, rfl⟩), ?_, ?_, by simp [Event.mutation]⟩
    · simp [pending, memData, taken, Hand.data, Event.mutation, (Memtable.empty_iff m).mp empty]
    · simp [memData, Event.mutation]
  | acquire good taken front =>
    have isGood : good = true := intact
    subst isGood
    exact .acquired rfl ⟨taken, front, rfl, rfl, rfl, ⟨rfl, rfl⟩⟩
  | write fault =>
    have whole : fault = none := Option.isNone_iff_eq_none.mp intact
    subst whole
    obtain ⟨m, id, wrote⟩ := writeStep_step done
    exact .written rfl wrote
  | publish written => exact .published rfl ⟨written, rfl, rfl, rfl, rfl, ⟨rfl, rfl⟩⟩
  | threw => cases intact
  | finish finished =>
    refine .memory ⟨rfl, rfl, rfl, (.inr ⟨by rw [finished]; rfl, rfl⟩), ?_, ?_, by simp [Event.mutation]⟩
    · simp [pending, memData, finished, Hand.data, Event.mutation]
    · simp [memData, Event.mutation]
  | exit =>
    exact .memory ⟨rfl, rfl, rfl, .inl rfl, by simp [pending, memData, Event.mutation],
      by simp [memData, Event.mutation], by simp [Event.mutation]⟩

/-- A flush moves no client and does not bear on the closing. -/
theorem stepFlush_frame {event : FlushEvent} (done : s.stepFlush event = some s') :
    s'.pcs = s.pcs ∧ s'.closer = s.closer := by
  cases stepFlush_cases done <;> exact ⟨rfl, rfl⟩

/-- What is done by a step of a client, of the flush, of the pool, or of `close` as it drains the queue. -/
theorem step_kinds {e : Event} (taken : step cfg s e = some s') :
    ClientStep s e s' ∨ (∃ event, e = .flush event ∧ s.stepFlush event = some s') ∨
      (∃ event, e = .pool event ∧ PoolStep s event s') ∨
      e = .drain ∧ ∃ m rest, s.hand = .idle ∧ s.immutables = m :: rest ∧
        s' = { s with hand := .taken m, immutables := rest } := by
  cases step_cases taken with
  | call | backpressure | searched =>
    exact .inl ⟨rfl, rfl, rfl, rfl, by simp [Event.mutation], by simp [Event.mutation, setPc]⟩
  | pushed =>
    have sealed : ∀ t, ((if s.active.empty then s else s.rotate).setPc t .waiting).active.data = [] := fun _ =>
      active_rotateUnlessEmpty s
    refine .inl ⟨?_, ?_, ?_, ?_, by simp [Event.mutation], sealed _ ▸ List.nil_suffix⟩
    all_goals split <;> rfl
  | ret _ returned => exact .inl returned.client
  | flush => exact .inr (.inl ⟨_, rfl, taken⟩)
  | pool _ replenished => exact .inr (.inr (.inl ⟨_, rfl, replenished, rfl, rfl, ⟨rfl, rfl⟩⟩))
  | close | closed => exact .inl ⟨rfl, rfl, rfl, rfl, by simp [memData, Event.mutation], by simp [Event.mutation]⟩
  | joined =>
    refine .inl ⟨?_, ?_, ?_, ?_, (memData_rotateUnlessEmpty s).trans (List.append_nil _).symm,
      (active_rotateUnlessEmpty s).symm ▸ List.nil_suffix⟩
    all_goals split <;> rfl
  | drain _ idle queue => exact .inr (.inr (.inr ⟨rfl, _, _, idle, queue, rfl⟩))

/-- Every step of the store with no loss of a memtable has one of the effects. -/
theorem step_effect {e : Event} (taken : step cfg s e = some s') (intact : e.intact = true) : Effect s e s' := by
  rcases step_kinds taken with client | ⟨event, rfl, done⟩ | ⟨event, rfl, done⟩ | ⟨rfl, m, rest, idle, queue, rfl⟩
  · exact client.effect
  · exact effect_flush done intact
  · exact .pooled rfl done
  · refine .memory ⟨rfl, rfl, rfl, (.inr ⟨by rw [idle]; rfl, rfl⟩), ?_, ?_, by simp [Event.mutation]⟩
    · simp [pending, memData, idle, queue, Hand.data, Event.mutation]
    · simp [memData, queue, Event.mutation]

/-- Apart from mutations that land, entries only leave the memtables. -/
theorem Effect.memData_suffix {e : Event} (effect : Effect s e s') : s'.memData <:+ s.memData ++ e.mutation.toList := by
  cases effect with
  | memory done => exact done.memData
  | acquired silent done => simp [silent, done.memory.memData]
  | written silent done => simp [silent, done.memory.memData]
  | published silent done => simp [silent, done.memory.memData]
  | pooled same done => simp [same, Event.mutation, done.memory.memData]

/-- The active memtable grows only by mutations that land. -/
theorem Effect.active_suffix {e : Event} (effect : Effect s e s') :
    s'.active.data <:+ s.active.data ++ e.mutation.toList := by
  cases effect with
  | memory done => exact done.active
  | acquired silent done => simp [silent, done.memory.active]
  | written silent done => simp [silent, done.memory.active]
  | published silent done => simp [silent, done.memory.active]
  | pooled same done => simp [same, Event.mutation, done.memory.active]

/-- Where a thread stands after a step, its own or another's. -/
inductive PcEffect (s : State) (t : Tid) (s' : State) : Prop
  | same (kept : s'.pcs t = s.pcs t)
  | idle (now : s'.pcs t = .idle)
  | entered (c : Call) (now : s'.pcs t = .entered c)
  | backpressure (c : Call) (now : s'.pcs t = .backpressure c)
  | missed (key : Key) (now : s'.pcs t = .missed key) (absent : s'.memtableGet key = none)
  | waiting (now : s'.pcs t = .waiting) (drained : s'.active.data = [])

theorem pcs_setPc (s : State) (t other : Tid) (pc : Pc) :
    (s.setPc t pc).pcs other = if other = t then pc else s.pcs other := Function.update_apply ..

theorem pcEffect_setPc {middle : State} {t : Tid} {pc : Pc} (before : middle.pcs = s.pcs) (other : Tid)
    (own : (middle.setPc t pc).pcs t = pc → PcEffect s t (middle.setPc t pc)) :
    PcEffect s other (middle.setPc t pc) := by
  by_cases here : other = t
  · subst here
    exact own (by rw [pcs_setPc, if_pos rfl])
  · exact .same (by rw [pcs_setPc, if_neg here, before])

theorem step_pcs {e : Event} (taken : step cfg s e = some s') (other : Tid) : PcEffect s other s' := by
  cases step_cases taken with
  | call => exact pcEffect_setPc rfl other fun now => .entered _ now
  | backpressure => exact pcEffect_setPc rfl other fun now => .backpressure _ now
  | searched _ _ absent => exact pcEffect_setPc rfl other fun now => .missed _ now absent
  | pushed =>
    split
    next empty => exact pcEffect_setPc rfl other fun now => .waiting now ((Memtable.empty_iff _).mp empty)
    next => exact pcEffect_setPc (by rfl) other fun now => .waiting now (show s.rotate.active.data = [] from rfl)
  | ret _ returned => cases returned <;> exact pcEffect_setPc (by rfl) other fun now => .idle now
  | flush => exact .same (congrFun (stepFlush_frame taken).1 other)
  | joined => exact .same (by split <;> rfl)
  | pool | close | drain | closed => exact .same rfl

/-- A call just made has not searched anything. -/
theorem not_missed_of_call {t : Tid} {c : Call} (taken : step cfg s (.call t c) = some s') (key : Key) :
    s'.pcs t ≠ .missed key := by
  cases step_cases taken with
  | call =>
    rw [pcs_setPc, if_pos rfl]
    simp

theorem stepRet_of_step {t : Tid} {c : Call} {r : Result} (taken : step cfg s (.ret t c r) = some s') :
    s.stepRet cfg t c r = some s' := by
  simp only [step] at taken
  split at taken
  · exact taken
  · cases taken

/-- A step moves one thread at most, and what the thread carries then it has carried before or was called with. -/
theorem step_thread {e : Event} (taken : step cfg s e = some s') :
    ∃ t pc, s'.pcs = Function.update s.pcs t pc ∧
      ∀ c, pc.carried = some c → (s.pcs t).carried = some c ∨ e = .call t c := by
  have silent : s'.pcs = s.pcs → ∃ t pc, s'.pcs = Function.update s.pcs t pc ∧
      ∀ c, pc.carried = some c → (s.pcs t).carried = some c ∨ e = .call t c := fun same =>
    ⟨0, s.pcs 0, by rw [Function.update_eq_self, same], fun _ => .inl⟩
  cases step_cases taken with
  | @call t c => exact ⟨t, .entered c, rfl, fun other now => .inr (by cases now; rfl)⟩
  | @backpressure t c _ _ entered => exact ⟨t, .backpressure c, rfl, fun other now => .inl (by rw [entered]; exact now)⟩
  | @searched t key => exact ⟨t, .missed key, rfl, fun _ now => by cases now⟩
  | @pushed t => exact ⟨t, .waiting, by split <;> rfl, fun _ now => by cases now⟩
  | @ret t _ _ _ _ returned =>
    refine ⟨t, .idle, ?_, fun _ now => by cases now⟩
    cases returned <;> rfl
  | flush => exact silent (stepFlush_frame taken).1
  | joined => exact silent (by dsimp only; split <;> rfl)
  | pool | close | drain | closed => exact silent rfl

/-- A mutation returns from the critical section of its thread. -/
theorem ReturnStep.carried {t : Tid} {c : Call} {r : Result} (returned : ReturnStep cfg s t c r s')
    {entry : Key × Value} (isMutation : c.mutation = some entry) :
    (s.pcs t).carried = some c ∧ s'.pcs = Function.update s.pcs t .idle := by
  cases returned with
  | added entered => exact ⟨by rw [entered]; rfl, rfl⟩
  | rotated carrying => exact ⟨by rcases carrying with entered | woken <;> simp [Pc.carried, *], rfl⟩
  | found | answered | passed => cases isMutation

end State

end LSMIO
