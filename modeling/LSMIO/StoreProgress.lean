import LSMIO.Library.Progress
import LSMIO.Reopen

namespace LSMIO

/-- The part of a flush that is still ahead, with the file the pool has to make for it. -/
def Hand.work : Hand → Nat
  | .idle => 0
  | .taken _ => 7
  | .acquired _ _ => 3
  | .written _ _ _ => 2
  | .finished => 1

/-- The steps the worker still makes until the pool is full. -/
def FilePool.work (p : FilePool) : Nat :=
  3 * (p.poolSize - p.pool.length) - match p.worker with
    | .waiting => 0
    | .needed => 1
    | .created _ => 2

/-- The steps a client still makes within its call, with the flush of a memtable that one of them seals. -/
def Pc.work : Pc → Nat
  | .idle => 0
  | .entered _ => 10
  | .backpressure _ => 9
  | .missed _ | .waiting => 1

/-- What a call pays for its own steps, and for those of the store that it makes necessary. -/
def Event.income : Event → Nat
  | .call _ _ => 11
  | .close _ => 12
  | _ => 0

namespace State

/-- A step that brings the store on, whosever it is: the files of the pool open, and the flush thread
returns once. -/
def Forward (s : State) : Event → Prop
  | .flush .exit => s.flusherExited = false
  | .pool (.create preOpened opened) => preOpened = true ∧ opened = true
  | _ => True

/-- The part of `close` that is still ahead. The memtable it seals is flushed, too. -/
def closeWork (s : State) : Nat := match s.closer with
  | .running => 0
  | .joining _ => 11 - if s.flusherExited then 1 else 0
  | .draining _ => 1
  | .closed => 0

/-- The steps that the threads of the store can make. -/
def work (s : State) : Nat := 8 * s.immutables.length + s.hand.work + s.pool.work + s.closeWork

/-- The steps still to come once the clients make no more calls. -/
def load (clients : Finset Tid) (s : State) : Nat := s.work + ∑ t ∈ clients, (s.pcs t).work

/-- Where the threads of the store can stand together, besides its phases. -/
structure Workers (cfg : Config) (s : State) : Prop where
  phases : Phases s
  quiet : s.hand = .idle → s.flushInProgress = false
  exited : s.flusherExited = true → s.closer ≠ .running
  size : s.pool.poolSize = cfg.filePoolSize
  room : s.pool.worker ≠ .waiting → s.pool.pool.length < s.pool.poolSize
  carrying : ∀ t c, s.pcs t = .backpressure c → c.mutation.isSome

variable {cfg : Config} {s s' : State} {e : Event}

theorem Workers.openStore (cfg : Config) (dir : Directory) (entries : List (FileName × Bytes)) :
    Workers cfg (openStore cfg dir entries) :=
  ⟨.openStore cfg dir entries, fun _ => rfl, by simp [State.openStore], rfl, fun busy => absurd rfl busy,
    by simp [State.openStore]⟩

/-- Only a mutation waits for backpressure. -/
theorem carrying_step (carrying : ∀ t c, s.pcs t = .backpressure c → c.mutation.isSome) (taken : step cfg s e = some s')
    (t : Tid) (c : Call) (now : s'.pcs t = .backpressure c) : c.mutation.isSome := by
  cases step_cases taken with
  | call | searched =>
    rw [pcs_setPc] at now
    split at now
    · cases now
    · exact carrying t c now
  | backpressure _ entry =>
    rw [pcs_setPc] at now
    split at now
    · cases now
      simp [entry]
    · exact carrying t c now
  | pushed =>
    rw [pcs_setPc] at now
    split at now
    · cases now
    · split at now <;> exact carrying t c now
  | ret _ returned =>
    cases returned <;> rw [pcs_setPc] at now <;> split at now
    all_goals first | cases now | exact carrying t c now
  | flush => exact carrying t c ((stepFlush_frame taken).1 ▸ now)
  | joined =>
    refine carrying t c (Eq.trans ?_ now)
    split <;> rfl
  | pool | close | drain | closed => exact carrying t c now

/-- What the worker's steps do to its work, and to the room it has seen. -/
theorem replenish_room {p p' : FilePool} {dir dir' : Directory} {event : PoolEvent}
    (done : p.replenish dir event = some (p', dir')) (room : p.worker ≠ .waiting → p.pool.length < p.poolSize) :
    p'.poolSize = p.poolSize ∧ (p'.worker ≠ .waiting → p'.pool.length < p'.poolSize) ∧
      ((∀ preOpened opened, event = .create preOpened opened → preOpened = true ∧ opened = true) →
        p'.work < p.work) := by
  cases event with
  | check =>
    simp only [FilePool.replenish] at done
    split at done
    next free =>
      cases done
      refine ⟨rfl, fun _ => free.2, fun _ => ?_⟩
      simp only [FilePool.work, free.1]
      omega
    next => cases done
  | create preOpened opened =>
    simp only [FilePool.replenish] at done
    split at done
    next turn =>
      have free := room (by simp [turn.1])
      split at done
      next =>
        obtain ⟨after, -, made⟩ := Option.map_eq_some_iff.mp done
        cases made
        refine ⟨rfl, fun _ => free, fun _ => ?_⟩
        simp only [FilePool.work, turn.1]
        omega
      next closed =>
        cases done
        exact ⟨rfl, fun busy => absurd rfl busy, fun opens => absurd (opens _ _ rfl).2 closed⟩
    next => cases done
  | insert =>
    simp only [FilePool.replenish] at done
    split at done
    next id made =>
      cases done
      have free := room (by simp [made])
      refine ⟨rfl, fun busy => absurd rfl busy, fun _ => ?_⟩
      simp only [FilePool.work, made, List.length_append, List.length_singleton]
      omega
    next => cases done

/-- A file taken from the pool is three steps of work for its worker. -/
theorem acquire_room {p p' : FilePool} {id : Nat} (front : p.acquire = some (id, p')) :
    p'.poolSize = p.poolSize ∧ p'.worker = p.worker ∧ p'.pool.length < p.pool.length ∧ p'.work ≤ p.work + 3 := by
  unfold FilePool.acquire at front
  split at front
  · cases front
  next rest queue =>
    cases front
    refine ⟨rfl, rfl, by simp [queue], ?_⟩
    simp only [FilePool.work, queue, List.length_cons]
    omega

theorem Workers.flush {event : FlushEvent} (workers : Workers cfg s) (done : FlushStep s event s') (phases : Phases s')
    (carrying : ∀ t c, s'.pcs t = .backpressure c → c.mutation.isSome) : Workers cfg s' := by
  cases done with
  | pop => exact ⟨phases, by simp, workers.exited, workers.size, workers.room, carrying⟩
  | skip => exact ⟨phases, by simp, workers.exited, workers.size, workers.room, carrying⟩
  | acquire good taken front =>
    obtain ⟨size, worker, less, -⟩ := acquire_room front
    refine ⟨phases, ?_, workers.exited, size.trans workers.size, fun busy => ?_, carrying⟩
    · cases good <;> simp
    · have busy' : s.pool.worker ≠ .waiting := worker ▸ busy
      have free := workers.room busy'
      simp only [size]
      omega
  | write => exact ⟨phases, by simp, workers.exited, workers.size, workers.room, carrying⟩
  | publish => exact ⟨phases, by simp, workers.exited, workers.size, workers.room, carrying⟩
  | threw => exact ⟨phases, by simp, workers.exited, workers.size, workers.room, carrying⟩
  | finish => exact ⟨phases, fun _ => rfl, workers.exited, workers.size, workers.room, carrying⟩
  | exit _ _ joining => exact ⟨phases, workers.quiet, by simp [joining], workers.size, workers.room, carrying⟩

/-- The steps of clients leave the threads of the store where they are. -/
theorem Workers.client (workers : Workers cfg s) (phases : Phases s')
    (carrying : ∀ t c, s'.pcs t = .backpressure c → c.mutation.isSome) (hand : s'.hand = s.hand)
    (flushInProgress : s'.flushInProgress = s.flushInProgress) (flusherExited : s'.flusherExited = s.flusherExited)
    (closer : s.closer ≠ .running → s'.closer ≠ .running) (pool : s'.pool = s.pool) : Workers cfg s' := by
  refine ⟨phases, fun idle => ?_, fun exited => ?_, ?_, ?_, carrying⟩
  · rw [flushInProgress]
    exact workers.quiet (hand ▸ idle)
  · exact closer (workers.exited (flusherExited ▸ exited))
  · rw [pool]
    exact workers.size
  · rw [pool]
    exact workers.room

theorem Workers.step (workers : Workers cfg s) (taken : step cfg s e = some s') : Workers cfg s' := by
  have phases := workers.phases.step taken
  have carrying := carrying_step workers.carrying taken
  cases step_cases taken with
  | call | backpressure | searched => exact workers.client phases carrying rfl rfl rfl id rfl
  | pushed =>
    refine workers.client phases carrying ?_ ?_ ?_ ?_ ?_
    all_goals split <;> first | rfl | exact id
  | ret _ returned => cases returned <;> exact workers.client phases carrying rfl rfl rfl id rfl
  | flush done => exact workers.flush done phases carrying
  | pool _ replenished =>
    obtain ⟨size, room, -⟩ := replenish_room replenished workers.room
    exact ⟨phases, workers.quiet, workers.exited, size.trans workers.size, room, carrying⟩
  | close => exact workers.client phases carrying rfl rfl rfl (by simp) rfl
  | joined =>
    refine workers.client phases carrying ?_ ?_ ?_ (fun _ => by simp) ?_
    all_goals split <;> rfl
  | drain draining => exact ⟨phases, by simp, workers.exited, workers.size, workers.room, carrying⟩
  | closed => exact ⟨phases, workers.quiet, by simp, workers.size, workers.room, carrying⟩

theorem Workers.of_run {dir : Directory} {entries : List (FileName × Bytes)} {ok : State → Event → Prop}
    {trace : List Event} (run : Run (Allowed (State.step cfg) ok) (State.openStore cfg dir entries) trace s) :
    Workers cfg s :=
  run.invariant (P := fun _ s => Workers cfg s) (.openStore cfg dir entries)
    fun _ _ _ _ _ workers taken => workers.step taken.2

/-- The steps of the store's own threads, with no client behind them. -/
theorem work_own (workers : Workers cfg s) (forward : s.Forward e) (own : e.client = none)
    (taken : State.step cfg s e = some s') :
    s'.work + 1 ≤ s.work := by
  cases step_cases taken with
  | call | backpressure | searched | pushed | ret | close => cases own
  | flush done =>
    cases done with
    | pop idle queue =>
      simp only [work, closeWork, idle, queue, Hand.work, List.length_cons]
      omega
    | skip held =>
      simp only [work, closeWork, held, Hand.work]
      omega
    | @acquire m id pool good held front =>
      obtain ⟨-, -, -, refill⟩ := acquire_room front
      have left : (if good then Hand.acquired m id else .finished : Hand).work ≤ 3 := by
        cases good <;> simp [Hand.work]
      simp only [work, closeWork, held, Hand.work] at left ⊢
      omega
    | write _ acquired =>
      simp only [work, closeWork, acquired, Hand.work]
      omega
    | publish written =>
      simp only [work, closeWork, written, Hand.work]
      omega
    | threw busy =>
      have unfinished : s.hand ≠ .finished := by
        intro finished
        simp [State.step, stepFlush, finished] at taken
      have ahead : 2 ≤ s.hand.work := by
        cases hand : s.hand with
        | idle => exact absurd hand busy
        | finished => exact absurd hand unfinished
        | taken | acquired | written => simp [Hand.work]
      have finished : Hand.finished.work = 1 := rfl
      simp only [work, closeWork, finished]
      omega
    | finish finished =>
      simp only [work, closeWork, finished, Hand.work]
      omega
    | exit _ _ joining =>
      have running : s.flusherExited = false := forward
      simp only [work, closeWork, joining, running, if_true, Bool.false_eq_true, if_false]
      omega
  | @pool event pool dir _ replenished =>
    obtain ⟨-, -, less⟩ := replenish_room replenished workers.room
    have opens : ∀ preOpened opened, event = .create preOpened opened → preOpened = true ∧ opened = true := by
      rintro preOpened opened rfl
      exact forward
    have spent := less opens
    simp only [work, closeWork]
    omega
  | joined joining exited =>
    have sealed : (if s.active.empty then s else s.rotate).immutables.length ≤ s.immutables.length + 1 := by
      split <;> simp [State.rotate]
    have hand : (if s.active.empty then s else s.rotate).hand = s.hand := by split <;> rfl
    have pool : (if s.active.empty then s else s.rotate).pool = s.pool := by split <;> rfl
    simp only [work, closeWork, joining, exited, hand, pool, if_true]
    omega
  | drain draining idle queue =>
    simp only [work, closeWork, draining, idle, queue, Hand.work, List.length_cons]
    omega
  | closed draining idle drained =>
    simp only [work, closeWork, draining]
    omega

theorem load_setPc {clients : Finset Tid} {t : Tid} (counted : t ∈ clients) (s : State) (pc : Pc) :
    (s.setPc t pc).load clients + (s.pcs t).work = s.load clients + pc.work := by
  have others : ∑ u ∈ clients.erase t, ((s.setPc t pc).pcs u).work = ∑ u ∈ clients.erase t, (s.pcs u).work := by
    refine Finset.sum_congr rfl fun u other => ?_
    rw [pcs_setPc, if_neg (Finset.ne_of_mem_erase other)]
  have own : ((s.setPc t pc).pcs t).work = pc.work := by rw [pcs_setPc, if_pos rfl]
  have before := Finset.add_sum_erase clients (fun u => (s.pcs u).work) counted
  have after := Finset.add_sum_erase clients (fun u => ((s.setPc t pc).pcs u).work) counted
  have same : (s.setPc t pc).work = s.work := rfl
  simp only [load, same]
  simp only [own, others] at after
  omega

theorem load_rotate (clients : Finset Tid) (s : State) : s.rotate.load clients = s.load clients + 8 := by
  have same : s.rotate.closeWork = s.closeWork := rfl
  have queue : s.rotate.immutables.length = s.immutables.length + 1 := by simp [rotate]
  have kept : s.rotate.hand = s.hand ∧ s.rotate.pool = s.pool ∧ s.rotate.pcs = s.pcs := ⟨rfl, rfl, rfl⟩
  simp only [load, work, same, queue, kept]
  omega

/-- Each step costs one of those there are to make, or of those that its call has paid for. -/
theorem load_step {clients : Finset Tid} (workers : Workers cfg s) (forward : s.Forward e)
    (counted : ∀ t ∈ e.client, t ∈ clients) (taken : State.step cfg s e = some s') :
    s'.load clients + 1 ≤ s.load clients + e.income := by
  have own (silent : e.client = none) (same : s'.pcs = s.pcs) : s'.load clients + 1 ≤ s.load clients + e.income := by
    have less := work_own workers forward silent taken
    simp only [load, same]
    omega
  cases step_cases taken with
  | @call t c idle =>
    have moved := load_setPc (counted t rfl) s (.entered c)
    simp only [idle, Pc.work, Event.income] at moved ⊢
    omega
  | @backpressure t c _ _ entered =>
    have moved := load_setPc (counted t rfl) s (.backpressure c)
    simp only [entered, Pc.work, Event.income] at moved ⊢
    omega
  | @searched t key entered =>
    have moved := load_setPc (counted t rfl) s (.missed key)
    simp only [entered, Pc.work, Event.income] at moved ⊢
    omega
  | @pushed t _ entered =>
    have entered' : (if s.active.empty then s else s.rotate).pcs t = .entered .writeBarrier := by
      split <;> exact entered
    have moved := load_setPc (counted t rfl) (if s.active.empty then s else s.rotate) .waiting
    have sealed : (if s.active.empty then s else s.rotate).load clients ≤ s.load clients + 8 := by
      split
      · omega
      · rw [load_rotate]
    simp only [entered', Pc.work, Event.income] at moved ⊢
    omega
  | @ret t c r s' _ returned =>
    have counted' := counted t rfl
    cases returned with
    | @added c key value entered =>
      have moved := load_setPc counted' (s.addActive key value) .idle
      have same : (s.addActive key value).load clients = s.load clients := rfl
      have entered' : (s.addActive key value).pcs t = .entered c := entered
      simp only [entered', same, Pc.work, Event.income] at moved ⊢
      omega
    | @rotated c key value carrying =>
      have moved := load_setPc counted' (s.rotate.addActive key value) .idle
      have same : (s.rotate.addActive key value).load clients = s.load clients + 8 := load_rotate clients s
      have ahead : 9 ≤ ((s.rotate.addActive key value).pcs t).work := by
        have same : (s.rotate.addActive key value).pcs t = s.pcs t := rfl
        rcases carrying with here | here <;> simp [same, here, Pc.work]
      have idle : Pc.idle.work = 0 := rfl
      simp only [same, idle, Event.income] at moved ⊢
      omega
    | found here | answered here | passed here =>
      have moved := load_setPc counted' s .idle
      simp only [here, Pc.work, Event.income] at moved ⊢
      omega
  | @close t running =>
    have stays : s.flusherExited = false := by
      by_contra exited
      exact workers.exited (by simpa using exited) running
    simp only [load, work, closeWork, running, stays, Event.income]
    omega
  | flush => exact own rfl (stepFlush_frame taken).1
  | joined => exact own rfl (by dsimp only; split <;> rfl)
  | pool | drain | closed => exact own rfl rfl

/-- Nothing is left for the threads of the store: every memtable sealed is flushed, and `close`, if it
was called, has returned. -/
def Settled (s : State) : Prop := s.hand = .idle ∧ s.immutables = [] ∧ (s.closer = .running ∨ s.closer = .closed)

/-- An empty pool that is to hold files has a step for its worker. -/
theorem replenish_enabled {p : FilePool} (dir : Directory) (empty : p.pool = []) (files : 0 < p.poolSize)
    (ids : p.nextId + 1 < 2 ^ 64) :
    ∃ event r, p.replenish dir event = some r ∧ ∀ preOpened opened, event = .create preOpened opened →
      preOpened = true ∧ opened = true := by
  cases worker : p.worker with
  | waiting => exact ⟨.check, _, if_pos ⟨worker, by simpa [empty] using files⟩, by simp⟩
  | needed =>
    have opens : ∃ dir', FilePool.openFile dir (fileName p.nextId) p.preAllocationSize true = some dir' := by
      unfold FilePool.openFile
      split
      · exact ⟨_, rfl⟩
      · exact ⟨_, rfl⟩
    obtain ⟨dir', opened⟩ := opens
    refine ⟨.create true true, ({ p with nextId := p.nextId + 1, worker := .created p.nextId }, dir'), ?_, by simp⟩
    simp only [FilePool.replenish, worker, ids, opened, and_self, if_true, Option.map_some]
  | created id =>
    exact ⟨.insert, ({ p with pool := p.pool ++ [id], worker := .waiting }, dir),
      by simp [FilePool.replenish, worker], by simp⟩

/-- A store with work left has a step to make without a client. -/
theorem enabled (workers : Workers cfg s) (files : 0 < cfg.filePoolSize) (ids : s.pool.nextId + 1 < 2 ^ 64)
    (unsettled : ¬ s.Settled) : ∃ e s', s.Forward e ∧ e.client = none ∧ State.step cfg s e = some s' := by
  cases hand : s.hand with
  | idle =>
    cases closer : s.closer with
    | running =>
      have running : s.flusherExited = false := by
        by_contra exited
        exact workers.exited (by simpa using exited) closer
      cases queue : s.immutables with
      | nil => exact absurd ⟨hand, queue, .inl closer⟩ unsettled
      | cons m rest =>
        exact ⟨.flush .pop, _, trivial, rfl, by
          simp only [State.step, stepFlush, hand, queue, live, closer, running]; rfl⟩
    | joining t =>
      cases exited : s.flusherExited with
      | true => exact ⟨.joined, _, trivial, rfl, by simp only [State.step, closer, exited, if_true]; rfl⟩
      | false =>
        cases queue : s.immutables with
        | nil => exact ⟨.flush .exit, _, exited, rfl, by simp only [State.step, stepFlush, hand, queue, closer]; rfl⟩
        | cons m rest =>
          exact ⟨.flush .pop, _, trivial, rfl, by
            simp only [State.step, stepFlush, hand, queue, live, closer, exited]; rfl⟩
    | draining t =>
      cases queue : s.immutables with
      | nil => exact ⟨.closed, _, trivial, rfl, by simp only [State.step, closer, hand, queue]; rfl⟩
      | cons m rest => exact ⟨.drain, _, trivial, rfl, by simp only [State.step, closer, hand, queue]; rfl⟩
    | closed => exact absurd ⟨hand, (workers.phases.emptied closer).1, .inr closer⟩ unsettled
  | taken m =>
    cases empty : m.empty with
    | true => exact ⟨.flush .skip, _, trivial, rfl, by simp only [State.step, stepFlush, hand, empty, if_true]; rfl⟩
    | false =>
      cases queue : s.pool.pool with
      | cons id rest =>
        refine ⟨.flush (.acquire true), { s with pool := { s.pool with pool := rest }, hand := .acquired m id },
          trivial, rfl, ?_⟩
        simp [State.step, stepFlush, hand, empty, FilePool.acquire, queue]
      | nil =>
        -- the flush waits for a file, and the pool has one to make
        have size : 0 < s.pool.poolSize := workers.size ▸ files
        obtain ⟨event, r, replenished, opens⟩ := replenish_enabled s.dir queue size ids
        have running : s.closer ≠ .closed := by
          intro closed
          have idle := (workers.phases.emptied closed).2
          rw [hand] at idle
          cases idle
        refine ⟨.pool event, { s with pool := r.1, dir := r.2 }, ?_, rfl, by simp [State.step, running, replenished]⟩
        cases event with
        | check | insert => trivial
        | create preOpened opened => exact opens preOpened opened rfl
  | acquired m id => exact ⟨.flush (.write none), _, trivial, rfl, by simp only [State.step, stepFlush, hand]; rfl⟩
  | written m id index => exact ⟨.flush .publish, _, trivial, rfl, by simp only [State.step, stepFlush, hand]; rfl⟩
  | finished => exact ⟨.flush .finish, _, trivial, rfl, by simp only [State.step, stepFlush, hand]; rfl⟩

/-- Behind a flushed queue every client within a call has a step of its own. -/
theorem client_enabled (workers : Workers cfg s) (queues : 0 < cfg.maxImmutableMemtables) (idle : s.hand = .idle)
    (flushed : s.immutables = []) (running : s.closer = .running) {t : Tid} (busy : s.pcs t ≠ .idle) :
    ∃ e s', s.Forward e ∧ e.client = some t ∧ e.income = 0 ∧ State.step cfg s e = some s' := by
  have live : s.live = true := by rw [State.live, running]
  have room : s.immutables.length < cfg.maxImmutableMemtables := by simpa [flushed] using queues
  cases pc : s.pcs t with
  | idle => exact absurd pc busy
  | entered c =>
    cases entry : c.mutation with
    | some mutation =>
      obtain ⟨key, value⟩ := mutation
      have lands : ∃ s', s.batchMutation cfg key value = some s' := by
        unfold batchMutation
        split
        · rw [if_neg (by omega)]
          exact ⟨_, rfl⟩
        · exact ⟨_, rfl⟩
      obtain ⟨s', landed⟩ := lands
      exact ⟨.ret t c (.bool true), s'.setPc t .idle, trivial, rfl, rfl, by
        simp [State.step, live, stepRet, entry, pc, landed]⟩
    | none =>
      cases c with
      | put => cases entry
      | del => cases entry
      | get key =>
        cases found : s.memtableGet key with
        | some stored =>
          exact ⟨.ret t (.get key) (.value (visible (some stored))), s.setPc t .idle, trivial, rfl, rfl, by
            simp [State.step, live, stepRet, Call.mutation, pc, found]⟩
        | none => exact ⟨.searched t, s.setPc t (.missed key), trivial, rfl, rfl, by simp [State.step, live, pc, found]⟩
      | writeBarrier =>
        exact ⟨.pushed t, (if s.active.empty then s else s.rotate).setPc t .waiting, trivial, rfl, rfl, by
          simp [State.step, live, pc]⟩
  | backpressure c =>
    obtain ⟨⟨key, value⟩, entry⟩ := Option.isSome_iff_exists.mp (workers.carrying t c pc)
    exact ⟨.ret t c (.bool true), (s.rotate.addActive key value).setPc t .idle, trivial, rfl, rfl, by
      simp [State.step, live, stepRet, entry, pc, batchMutationWoken, room]⟩
  | missed key =>
    exact ⟨.ret t (.get key) (.value (visible (s.sstableGet key))), s.setPc t .idle, trivial, rfl, rfl, by
      simp [State.step, live, stepRet, Call.mutation, pc]⟩
  | waiting =>
    have quiet := workers.quiet idle
    exact ⟨.ret t .writeBarrier (.bool true), s.setPc t .idle, trivial, rfl, rfl, by
      simp [State.step, live, stepRet, Call.mutation, pc, flushed, quiet]⟩

/-- The steps counted here: those that bring the store on, by some clients and by its own threads. -/
def Served (clients : Finset Tid) (s : State) (e : Event) : Prop := s.Forward e ∧ ∀ t ∈ e.client, t ∈ clients

/-- Nothing is left to do: every memtable sealed is flushed, and unless a `close` has returned no client is within a
call. -/
def Done (clients : Finset Tid) (s : State) : Prop := s.Settled ∧ (s.closer = .running → ∀ t ∈ clients, s.pcs t = .idle)

instance (s : State) : DecidablePred s.Forward := fun e => by
  unfold Forward
  split <;> infer_instance

instance (clients : Finset Tid) : DecidableRel (Served clients) := fun s e =>
  inferInstanceAs (Decidable (s.Forward e ∧ ∀ t ∈ e.client, t ∈ clients))

end State

end LSMIO
