import LSMIO.StoreNative

namespace LSMIO.State

/-- The steps of a flush: what each one needs, and the state it leads to. -/
inductive FlushStep (s : State) : FlushEvent → State → Prop
  | pop {m : Memtable} {rest : List Memtable} (idle : s.hand = .idle) (queue : s.immutables = m :: rest)
    (live : s.live = true)
      (running : s.flusherExited = false) :
      FlushStep s .pop { s with hand := .taken m, immutables := rest, flushInProgress := true }
  | skip {m : Memtable} (taken : s.hand = .taken m) (empty : m.empty = true) :
    FlushStep s .skip { s with hand := .finished }
  | acquire {m : Memtable} {id : Nat} {pool : FilePool} (good : Bool) (taken : s.hand = .taken m)
      (front : s.pool.acquire = some (id, pool)) :
      FlushStep s (.acquire good) { s with pool := pool, hand := if good then .acquired m id else .finished }
  | write {m : Memtable} {id : Nat} (fault : Option (Nat × Nat)) (acquired : s.hand = .acquired m id) :
      FlushStep s (.write fault) { s with
        dir := s.dir.insert (fileName id)
          (writeRecords fault (OStream.opened (s.dir[fileName id]?.getD [])) m.data).1.content
        hand := .written m id (L0Index.build (fileName id)
          (writeRecords fault (OStream.opened (s.dir[fileName id]?.getD [])) m.data).2) }
  | publish {m : Memtable} {id : Nat} {index : L0Index} (written : s.hand = .written m id index) :
      FlushStep s .publish { s with head := index :: s.head, hand := .finished }
  | threw (busy : s.hand ≠ .idle) (live : s.live = true) : FlushStep s .threw { s with hand := .finished }
  | finish (finished : s.hand = .finished) : FlushStep s .finish { s with hand := .idle, flushInProgress := false }
  | exit {t : Tid} (idle : s.hand = .idle) (queue : s.immutables = []) (joining : s.closer = .joining t) :
      FlushStep s .exit { s with flusherExited := true }

/-- The returns of calls. A mutation goes to the active memtable, or to a new one where the queue has room. -/
inductive ReturnStep (cfg : Config) (s : State) (t : Tid) : Call → Result → State → Prop
  | added {c : Call} {key : Key} {value : Value} (entered : s.pcs t = .entered c)
    (entry : c.mutation = some (key, value))
      (fits : s.needsRotation cfg key value = false) :
      ReturnStep cfg s t c (.bool true) ((s.addActive key value).setPc t .idle)
  | rotated {c : Call} {key : Key} {value : Value} (carrying : s.pcs t = .entered c ∨ s.pcs t = .backpressure c)
      (entry : c.mutation = some (key, value)) (room : s.immutables.length < cfg.maxImmutableMemtables) :
      ReturnStep cfg s t c (.bool true) ((s.rotate.addActive key value).setPc t .idle)
  | found {key : Key} {stored : Value} (entered : s.pcs t = .entered (.get key))
    (inMemory : s.memtableGet key = some stored) :
      ReturnStep cfg s t (.get key) (.value (visible (some stored))) (s.setPc t .idle)
  | answered {key : Key} (missed : s.pcs t = .missed key) :
      ReturnStep cfg s t (.get key) (.value (visible (s.sstableGet key))) (s.setPc t .idle)
  | passed (waiting : s.pcs t = .waiting) (drained : s.immutables = []) (quiet : s.flushInProgress = false) :
      ReturnStep cfg s t .writeBarrier (.bool true) (s.setPc t .idle)

/-- The steps of the store. -/
inductive Step (cfg : Config) (s : State) : Event → State → Prop
  | call {t : Tid} {c : Call} (idle : s.pcs t = .idle) (running : s.closer = .running) :
      Step cfg s (.call t c) (s.setPc t (.entered c))
  | backpressure {t : Tid} {c : Call} {key : Key} {value : Value} (entered : s.pcs t = .entered c)
      (entry : c.mutation = some (key, value)) (live : s.live = true) (full : s.needsRotation cfg key value = true)
      (queued : cfg.maxImmutableMemtables ≤ s.immutables.length) :
      Step cfg s (.backpressure t) (s.setPc t (.backpressure c))
  | searched {t : Tid} {key : Key} (entered : s.pcs t = .entered (.get key)) (live : s.live = true)
      (absent : s.memtableGet key = none) : Step cfg s (.searched t) (s.setPc t (.missed key))
  | pushed {t : Tid} (live : s.live = true) (entered : s.pcs t = .entered .writeBarrier) :
      Step cfg s (.pushed t) ((if s.active.empty then s else s.rotate).setPc t .waiting)
  | ret {t : Tid} {c : Call} {r : Result} {s' : State} (live : s.live = true) (returned : ReturnStep cfg s t c r s') :
      Step cfg s (.ret t c r) s'
  | flush {event : FlushEvent} {s' : State} (done : FlushStep s event s') : Step cfg s (.flush event) s'
  | pool {event : PoolEvent} {pool : FilePool} {dir : Directory} (open' : s.closer ≠ .closed)
      (replenished : s.pool.replenish s.dir event = some (pool, dir)) :
      Step cfg s (.pool event) { s with pool := pool, dir := dir }
  | close {t : Tid} (running : s.closer = .running) (idle : s.pcs t = .idle) :
      Step cfg s (.close t) { s with closer := .joining t }
  | joined {t : Tid} (joining : s.closer = .joining t) (exited : s.flusherExited = true) :
      Step cfg s .joined { (if s.active.empty then s else s.rotate) with closer := .draining t }
  | drain {t : Tid} {m : Memtable} {rest : List Memtable} (draining : s.closer = .draining t) (idle : s.hand = .idle)
      (queue : s.immutables = m :: rest) : Step cfg s .drain { s with hand := .taken m, immutables := rest }
  | closed {t : Tid} (draining : s.closer = .draining t) (idle : s.hand = .idle) (drained : s.immutables = []) :
      Step cfg s .closed { s with closer := .closed }

variable {cfg : Config} {s s' : State}

theorem stepFlush_cases {event : FlushEvent} (done : s.stepFlush event = some s') : FlushStep s event s' := by
  cases event with
  | pop =>
    simp only [stepFlush] at done
    split at done
    next m rest idle queue =>
      split at done
      next ready =>
        obtain ⟨live, running⟩ : s.live = true ∧ s.flusherExited = false := by simpa using ready
        cases done
        exact .pop idle queue live running
      next => cases done
    next => cases done
  | skip =>
    simp only [stepFlush] at done
    split at done
    next m taken =>
      split at done
      next empty =>
        cases done
        exact .skip taken empty
      next => cases done
    next => cases done
  | acquire good =>
    simp only [stepFlush] at done
    split at done
    next m id pool taken front =>
      split at done
      · cases done
      · cases done
        exact .acquire good taken front
    next => cases done
  | write fault =>
    simp only [stepFlush] at done
    split at done
    next m id acquired =>
      cases done
      exact .write fault acquired
    next => cases done
  | publish =>
    simp only [stepFlush] at done
    split at done
    next m id index written =>
      cases done
      exact .publish written
    next => cases done
  | threw =>
    have busy : s.hand ≠ .idle := by
      intro idle
      simp only [stepFlush, idle] at done
      cases done
    simp only [stepFlush] at done
    split at done <;> try split at done
    all_goals first | cases done; exact .threw busy ‹_› | cases done
  | finish =>
    simp only [stepFlush] at done
    split at done
    next finished =>
      cases done
      exact .finish finished
    next => cases done
  | exit =>
    simp only [stepFlush] at done
    split at done
    next idle queue joining =>
      cases done
      exact .exit idle queue joining
    next => cases done

theorem batchMutation_cases {key : Key} {value : Value} (done : s.batchMutation cfg key value = some s') :
    s.needsRotation cfg key value = false ∧ s' = s.addActive key value ∨
      s.immutables.length < cfg.maxImmutableMemtables ∧ s' = s.rotate.addActive key value := by
  unfold batchMutation at done
  split at done
  next =>
    split at done
    next => cases done
    next room => exact .inr ⟨Nat.lt_of_not_le room, (Option.some.inj done).symm⟩
  next fits => exact .inl ⟨Bool.eq_false_iff.mpr fits, (Option.some.inj done).symm⟩

theorem batchMutationWoken_cases {key : Key} {value : Value} (done : s.batchMutationWoken cfg key value = some s') :
    s.immutables.length < cfg.maxImmutableMemtables ∧ s' = s.rotate.addActive key value := by
  unfold batchMutationWoken at done
  split at done
  next room => exact ⟨room, (Option.some.inj done).symm⟩
  next => cases done

theorem stepRet_cases {t : Tid} {c : Call} {r : Result} (done : s.stepRet cfg t c r = some s') :
    ReturnStep cfg s t c r s' := by
  cases entry : c.mutation with
  | some mutation =>
    obtain ⟨key, value⟩ := mutation
    simp only [stepRet, entry] at done
    split at done
    next result =>
      subst result
      split at done
      next entered =>
        obtain ⟨landed, run, rfl⟩ := Option.map_eq_some_iff.mp done
        rcases batchMutation_cases run with ⟨fits, rfl⟩ | ⟨room, rfl⟩
        · exact .added entered entry fits
        · exact .rotated (.inl entered) entry room
      next =>
        split at done
        next woken =>
          obtain ⟨landed, run, rfl⟩ := Option.map_eq_some_iff.mp done
          obtain ⟨room, rfl⟩ := batchMutationWoken_cases run
          exact .rotated (.inr woken) entry room
        next => cases done
    next => cases done
  | none =>
    cases c with
    | put => cases entry
    | del => cases entry
    | get key =>
      simp only [stepRet, Call.mutation] at done
      split at done
      next entered =>
        split at done
        next stored inMemory =>
          split at done
          next result =>
            cases done
            exact result ▸ .found entered inMemory
          next => cases done
        next => cases done
      next =>
        split at done
        next missed =>
          cases done
          exact missed.2 ▸ .answered missed.1
        next => cases done
    | writeBarrier =>
      simp only [stepRet, Call.mutation] at done
      split at done
      next returns =>
        obtain ⟨waiting, -, rfl, drained, quiet⟩ : s.pcs t = .waiting ∧ True ∧ r = .bool true ∧ s.immutables = [] ∧
          s.flushInProgress = false := by simpa using returns
        cases done
        exact .passed waiting drained quiet
      next => cases done

/-- The step function takes the steps of the store. -/
theorem step_cases {e : Event} (taken : step cfg s e = some s') : Step cfg s e s' := by
  cases e with
  | call t c =>
    simp only [step] at taken
    split at taken
    next ready =>
      cases taken
      exact .call ready.1 ready.2
    next => cases taken
  | backpressure t =>
    simp only [step] at taken
    split at taken
    next c entered =>
      split at taken
      next key value entry =>
        split at taken
        next waits =>
          cases taken
          exact .backpressure entered entry waits.1 waits.2.1 waits.2.2
        next => cases taken
      next => cases taken
    next => cases taken
  | searched t =>
    simp only [step] at taken
    split at taken
    next key entered =>
      split at taken
      next missing =>
        cases taken
        exact .searched entered missing.1 missing.2
      next => cases taken
    next => cases taken
  | pushed t =>
    simp only [step] at taken
    split at taken
    next ready =>
      cases taken
      exact .pushed ready.1 ready.2
    next => cases taken
  | ret t c r =>
    simp only [step] at taken
    split at taken
    next live => exact .ret live (stepRet_cases taken)
    next => cases taken
  | flush event => exact .flush (stepFlush_cases taken)
  | pool event =>
    simp only [step] at taken
    split at taken
    next => cases taken
    next running =>
      obtain ⟨⟨pool, dir⟩, replenished, rfl⟩ := Option.map_eq_some_iff.mp taken
      exact .pool running replenished
  | close t =>
    simp only [step] at taken
    split at taken
    next ready =>
      cases taken
      exact .close ready.1 ready.2
    next => cases taken
  | joined =>
    simp only [step] at taken
    split at taken
    next t joining =>
      split at taken
      next exited =>
        cases taken
        exact .joined joining exited
      next => cases taken
    next => cases taken
  | drain =>
    simp only [step] at taken
    split at taken
    next t m rest draining idle queue =>
      cases taken
      exact .drain draining idle queue
    next => cases taken
  | closed =>
    simp only [step] at taken
    split at taken
    next t draining idle drained =>
      cases taken
      exact .closed draining idle drained
    next => cases taken

end LSMIO.State
