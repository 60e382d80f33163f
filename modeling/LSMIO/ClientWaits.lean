import LSMIO.StorePhases

namespace LSMIO

/-- The condition variables on which clients sleep: `_backpressure_cv` and `_barrier_cv`. -/
inductive ClientCv
  | backpressure
  | barrier
  deriving DecidableEq

/-- The condition variable of the wait a client is in. -/
def Pc.cv : Pc → Option ClientCv
  | .backpressure _ => some .backpressure
  | .waiting => some .barrier
  | .idle | .entered _ | .missed _ => none

/-- The predicates of the two waits. -/
def State.passes (cfg : Config) (s : State) : ClientCv → Bool
  | .backpressure => decide (s.immutables.length < cfg.maxImmutableMemtables)
  | .barrier => s.immutables.isEmpty && !s.flushInProgress

/-- The native store with the clients asleep in their waits, and the `notify_all` that the flush
thread has come to and not yet made. -/
structure ClientWaits where
  store : State
  asleep : Tid → Bool
  owed : Option ClientCv

/-- `test` is the test of a woken client that finds its predicate false. -/
inductive ClientWaitsEvent
  | store (e : Event)
  | notify
  | spurious (t : Tid)
  | test (t : Tid)
  deriving DecidableEq

namespace ClientWaits

def openStore (cfg : Config) (dir : Directory) (entries : List (FileName × Bytes)) : ClientWaits :=
  ⟨State.openStore cfg dir entries, fun _ => false, none⟩

/-- The flush thread notifies before it goes on, and a sleeping client does not return. -/
def allows (s : ClientWaits) : Event → Bool
  | .flush _ => s.owed.isNone
  | .ret t _ _ => !s.asleep t
  | _ => true

/-- Who sleeps after a step of the store: a client whose wait has found its predicate false. -/
def falls (cfg : Config) (s : ClientWaits) (store : State) : Event → Tid → Bool
  | .backpressure t => Function.update s.asleep t true
  | .pushed t => Function.update s.asleep t (!store.passes cfg .barrier)
  | _ => s.asleep

/-- What the flush thread is to notify next. While `close` drains the queue nobody is. -/
def owes (s : ClientWaits) : Event → Option ClientCv
  | .flush .pop => some .backpressure
  | .flush .finish => if s.store.live then some .barrier else s.owed
  | _ => s.owed

def step (cfg : Config) (s : ClientWaits) : ClientWaitsEvent → Option ClientWaits
  | .store e =>
    if s.allows e then
      (s.store.step cfg e).map fun store => { store := store, asleep := s.falls cfg store e, owed := s.owes e }
    else none
  | .notify => match s.owed with
    | some cv => some { s with asleep := fun t => s.asleep t && (s.store.pcs t).cv ≠ some cv, owed := none }
    | none => none
  | .spurious t => if s.asleep t then some { s with asleep := Function.update s.asleep t false } else none
  | .test t => match (s.store.pcs t).cv with
    | some cv =>
      if s.store.live ∧ !s.asleep t ∧ !s.store.passes cfg cv then
        some { s with asleep := Function.update s.asleep t true }
      else none
    | none => none

/-- The sleepers are in a wait, and as long as `close` has not joined the flush thread each of
those that could go on is one that the flush thread is about to notify. -/
structure Attended (cfg : Config) (s : ClientWaits) : Prop where
  waits : ∀ t, s.asleep t = true → (s.store.pcs t).cv ≠ none
  owed : s.store.live = true → ∀ t cv, s.asleep t = true → (s.store.pcs t).cv = some cv → s.store.passes cfg cv = true →
    s.owed = some cv

variable {cfg : Config} {s s' : ClientWaits} {e : ClientWaitsEvent}

/-- A step that does not make a predicate true leaves those who sleep to whom they were left. -/
theorem Attended.kept {store : State} (attended : Attended cfg s)
    (pcs : ∀ t, s.asleep t = true → store.pcs t = s.store.pcs t) (live : store.live = true → s.store.live = true)
    (passes : ∀ cv, store.passes cfg cv = true → s.store.passes cfg cv = true) :
    Attended cfg { s with store := store } := by
  refine ⟨fun t asleep => ?_, fun now t cv asleep waits pass => ?_⟩
  · rw [pcs t asleep]
    exact attended.waits t asleep
  · rw [pcs t asleep] at waits
    exact attended.owed (live now) t cv asleep waits (passes cv pass)

/-- The predicates get no truer with a longer queue. -/
theorem passes_mono {store store' : State} (queue : store.immutables.length ≤ store'.immutables.length)
    (flushInProgress : store'.flushInProgress = store.flushInProgress) (cv : ClientCv)
    (pass : store'.passes cfg cv = true) : store.passes cfg cv = true := by
  cases cv with
  | backpressure =>
    simp only [State.passes, decide_eq_true_eq] at pass ⊢
    omega
  | barrier =>
    simp only [State.passes, flushInProgress, Bool.and_eq_true, List.isEmpty_iff_length_eq_zero] at pass ⊢
    exact ⟨by omega, pass.2⟩

/-- A client that begins to sleep has just found its predicate false. -/
theorem Attended.slept {t : Tid} (attended : Attended cfg s) {cv : ClientCv} {b : Bool}
    (here : (s.store.pcs t).cv = some cv) (fails : b = true → s.store.passes cfg cv = false) :
    Attended cfg { s with asleep := Function.update s.asleep t b } := by
  refine ⟨fun u asleep => ?_, fun live u cv' asleep waits pass => ?_⟩
  · by_cases same : u = t
    · subst same
      simp [here]
    · simp only [Function.update_of_ne same] at asleep
      exact attended.waits u asleep
  · by_cases same : u = t
    · subst same
      simp only [Function.update_self] at asleep
      have others := Option.some.inj (here.symm.trans waits)
      rw [← others, fails asleep] at pass
      cases pass
    · simp only [Function.update_of_ne same] at asleep
      exact attended.owed live u cv' asleep waits pass

/-- A client returns from its call, or begins or goes on with one, only awake. -/
theorem Attended.setPc {store : State} {t : Tid} {pc : Pc} (attended : Attended cfg s) (awake : s.asleep t = false)
    (pcs : store.pcs = s.store.pcs) (live : store.live = s.store.live)
    (queue : s.store.immutables.length ≤ store.immutables.length)
    (flushInProgress : store.flushInProgress = s.store.flushInProgress) :
    Attended cfg { s with store := store.setPc t pc } := by
  refine attended.kept (fun u asleep => ?_) (fun now => live ▸ now) fun cv => passes_mono queue flushInProgress cv
  have other : u ≠ t := by
    rintro rfl
    rw [asleep] at awake
    cases awake
  rw [State.pcs_setPc, if_neg other, pcs]

/-- A client outside of a wait is awake. -/
theorem Attended.awake (attended : Attended cfg s) {t : Tid} (outside : (s.store.pcs t).cv = none) :
    s.asleep t = false := by
  by_contra asleep
  exact attended.waits t (by simpa using asleep) outside

/-- The steps of a flush: nobody sleeps on a true predicate before them, and those that may make one true owe a
notification. -/
theorem Attended.flush {event : FlushEvent} {store : State} (attended : Attended cfg s) (paid : s.owed = none)
    (taken : State.step cfg s.store (.flush event) = some store) :
    Attended cfg { store := store, asleep := s.asleep, owed := s.owes (.flush event) } := by
  obtain ⟨pcs, closer⟩ := State.stepFlush_frame taken
  have live : store.live = s.store.live := by rw [State.live, State.live, closer]
  have none' : ∀ t cv, s.store.live = true → s.asleep t = true → (s.store.pcs t).cv = some cv →
    s.store.passes cfg cv = false := by
    intro t cv now asleep waits
    by_contra pass
    have owed := attended.owed now t cv asleep waits (by simpa using pass)
    rw [paid] at owed
    cases owed
  have waits : ∀ t, s.asleep t = true → (store.pcs t).cv ≠ none := fun t asleep => pcs ▸ attended.waits t asleep
  have same (passes : ∀ cv, store.passes cfg cv = s.store.passes cfg cv) (owed : Option ClientCv) :
      Attended cfg { store := store, asleep := s.asleep, owed := owed } := by
    refine ⟨waits, fun now t cv asleep here pass => ?_⟩
    have fails := none' t cv (live ▸ now) asleep (pcs ▸ here)
    rw [← passes cv, pass] at fails
    cases fails
  cases State.stepFlush_cases taken with
  | pop =>
    refine ⟨waits, fun now t cv asleep here pass => ?_⟩
    cases cv with
    | backpressure => rfl
    | barrier => simp [State.passes] at pass
  | finish =>
    refine ⟨waits, fun now t cv asleep here pass => ?_⟩
    cases cv with
    | backpressure =>
      have fails := none' t .backpressure (live ▸ now) asleep (pcs ▸ here)
      exact absurd (pass.symm.trans fails) (by simp)
    | barrier =>
      have running : s.store.live = true := live ▸ now
      simp [owes, running]
  | skip | acquire | write | publish | threw | exit => exact same (fun cv => by cases cv <;> rfl) _

theorem Attended.stored {event : Event} {store : State} (attended : Attended cfg s) (allowed : s.allows event = true)
    (taken : State.step cfg s.store event = some store) :
    Attended cfg { store := store, asleep := s.falls cfg store event, owed := s.owes event } := by
  have dead (past : store.live = false) (pcs : store.pcs = s.store.pcs) (owed : Option ClientCv) :
      Attended cfg { store := store, asleep := s.asleep, owed := owed } := by
    refine ⟨fun t asleep => pcs ▸ attended.waits t asleep, fun now => ?_⟩
    rw [show store.live = true from now] at past
    cases past
  cases State.step_cases taken with
  | @call t c idle =>
    have awake := attended.awake (t := t) (by rw [idle]; rfl)
    exact attended.setPc awake rfl rfl le_rfl rfl
  | @backpressure t c key value entered _ _ _ queued =>
    have awake := attended.awake (t := t) (by rw [entered]; rfl)
    have moved := (attended.setPc awake rfl rfl le_rfl rfl :
      Attended cfg { s with store := s.store.setPc t (.backpressure c) })
    refine moved.slept (show Pc.cv _ = some .backpressure by simp [State.setPc, Pc.cv]) fun _ => ?_
    exact decide_eq_false (Nat.not_lt.mpr queued)
  | @searched t key entered =>
    have awake := attended.awake (t := t) (by rw [entered]; rfl)
    exact attended.setPc awake rfl rfl le_rfl rfl
  | @pushed t live entered =>
    have awake := attended.awake (t := t) (by rw [entered]; rfl)
    have moved : Attended cfg
      { s with store := (if s.store.active.empty then s.store else s.store.rotate).setPc t .waiting } := by
      refine attended.setPc awake ?_ ?_ ?_ ?_
      all_goals split <;> first | rfl | simp [State.rotate]
    refine moved.slept (show Pc.cv _ = some .barrier by simp [State.setPc, Pc.cv]) fun fails => ?_
    simpa using fails
  | @ret t c r _ _ returned =>
    have awake : s.asleep t = false := by simpa [allows] using allowed
    cases returned with
    | added => exact attended.setPc awake rfl rfl le_rfl rfl
    | rotated => exact attended.setPc awake rfl rfl (by simp [State.rotate, State.addActive]) rfl
    | found | answered | passed => exact attended.setPc awake rfl rfl le_rfl rfl
  | flush => exact attended.flush (by simpa [allows] using allowed) taken
  | pool => exact attended.kept (fun _ _ => rfl) (fun live => live) fun cv => passes_mono le_rfl rfl cv
  | close running =>
    have live : s.store.live = true := by rw [State.live, running]
    exact attended.kept (fun _ _ => rfl) (fun _ => live) fun cv => passes_mono le_rfl rfl cv
  | joined => exact dead rfl (by dsimp only; split <;> rfl) _
  | drain draining => exact dead (by rw [State.live, draining]) rfl _
  | closed => exact dead rfl rfl _

theorem Attended.step (attended : Attended cfg s) (taken : s.step cfg e = some s') : Attended cfg s' := by
  cases e with
  | store event =>
    simp only [ClientWaits.step] at taken
    split at taken
    next allowed =>
      obtain ⟨store, done, rfl⟩ := Option.map_eq_some_iff.mp taken
      exact attended.stored allowed done
    next => cases taken
  | notify =>
    simp only [ClientWaits.step] at taken
    split at taken
    next cv owed =>
      cases taken
      refine ⟨fun t asleep => ?_, fun live t cv' asleep waits pass => ?_⟩
      · simp only [Bool.and_eq_true] at asleep
        exact attended.waits t asleep.1
      · simp only [Bool.and_eq_true, decide_eq_true_eq] at asleep
        have left := attended.owed live t cv' asleep.1 waits pass
        rw [owed] at left
        exact absurd (waits.trans left.symm) asleep.2
    next => cases taken
  | spurious t =>
    simp only [ClientWaits.step] at taken
    split at taken
    next asleep =>
      cases taken
      cases here : (s.store.pcs t).cv with
      | none => exact absurd here (attended.waits t asleep)
      | some cv => exact attended.slept here (by simp)
    next => cases taken
  | test t =>
    simp only [ClientWaits.step] at taken
    split at taken
    next cv here =>
      split at taken
      next fails =>
        cases taken
        exact attended.slept here fun _ => by simpa using fails.2.2
      next => cases taken
    next => cases taken

theorem Attended.openStore (cfg : Config) (dir : Directory) (entries : List (FileName × Bytes)) :
    Attended cfg (openStore cfg dir entries) :=
  ⟨fun _ asleep => (by cases asleep), fun _ _ _ asleep => (by cases asleep)⟩

/-- Behind its last look at the queue the flush thread owes nobody anything, and takes up no further memtable. -/
structure Parted (s : ClientWaits) : Prop where
  paid : s.store.flusherExited = true → s.owed = none
  idle : s.store.flusherExited = true → s.store.live = true → s.store.hand = .idle
  joined : s.store.live = false → s.store.flusherExited = true

theorem Parted.openStore (cfg : Config) (dir : Directory) (entries : List (FileName × Bytes)) :
    Parted (openStore cfg dir entries) :=
  ⟨fun _ => rfl, fun _ _ => rfl, fun past => (by cases past)⟩

theorem Parted.stored {event : Event} {store : State} {asleep : Tid → Bool} (parted : Parted s)
    (allowed : s.allows event = true) (taken : State.step cfg s.store event = some store) :
    Parted { store := store, asleep := asleep, owed := s.owes event } := by
  have same (exited : store.flusherExited = s.store.flusherExited) (closer : store.closer = s.store.closer)
      (hand : store.hand = s.store.hand) : Parted { store := store, asleep := asleep, owed := s.owed } := by
    have live : store.live = s.store.live := by rw [State.live, State.live, closer]
    refine ⟨fun now => parted.paid (exited ▸ now), fun now live' => ?_, fun past =>
      exited ▸ parted.joined (live ▸ past)⟩
    rw [hand]
    exact parted.idle (exited ▸ now) (live ▸ live')
  -- past the join nobody is owed anything, whatever the closing thread does with the queue
  have past (exited : s.store.flusherExited = true) (exited' : store.flusherExited = true) (dead : store.live = false)
      (silent : s.owes event = s.owed) : Parted { store := store, asleep := asleep, owed := s.owes event } :=
    ⟨fun _ => silent.trans (parted.paid exited), fun _ live' => absurd (dead.symm.trans live') (by simp), fun _ =>
      exited'⟩
  -- a flush under way is not behind the last look at the queue, or it is one of `close`
  have busy (hand : s.store.hand ≠ .idle) (exited : store.flusherExited = s.store.flusherExited)
    (closer : store.closer = s.store.closer)
      (silent : s.store.live = false → s.owes event = s.owed) :
        Parted { store := store, asleep := asleep, owed := s.owes event } := by
    have live : store.live = s.store.live := by rw [State.live, State.live, closer]
    have dead : s.store.flusherExited = true → s.store.live = false := by
      intro now
      by_contra running
      exact hand (parted.idle now (by simpa using running))
    refine ⟨fun now => ?_, fun now live' => ?_, fun past => exited ▸ parted.joined (live ▸ past)⟩
    · exact (silent (dead (exited ▸ now))).trans (parted.paid (exited ▸ now))
    · rw [show store.live = true from live', dead (exited ▸ now)] at live
      cases live
  cases State.step_cases taken with
  | call | backpressure | searched | pool => exact same rfl rfl rfl
  | pushed =>
    refine same ?_ ?_ ?_
    all_goals split <;> rfl
  | ret _ returned => cases returned <;> exact same rfl rfl rfl
  | flush done =>
    cases done with
    | pop _ _ live running =>
      have up : ¬ s.store.flusherExited = true := by simp [running]
      exact ⟨fun now => absurd now up, fun now => absurd now up, fun dead => absurd (live.symm.trans dead) (by simp)⟩
    | skip hand | acquire _ hand | write _ hand | publish hand => exact busy (by simp [hand]) rfl rfl fun _ => rfl
    | threw hand => exact busy hand rfl rfl fun _ => rfl
    | finish hand => exact busy (by simp [hand]) rfl rfl fun dead => by simp [owes, dead]
    | exit idle =>
      have paid : s.owed = none := by simpa [allows] using allowed
      refine ⟨fun _ => paid, fun _ _ => idle, fun _ => rfl⟩
  | close running =>
    have live : s.store.live = true := by rw [State.live, running]
    exact ⟨parted.paid, fun now _ => parted.idle now live, fun dead => by cases dead⟩
  | joined joining exited => exact past exited (by dsimp only; split <;> exact exited) rfl rfl
  | drain draining | closed draining =>
    have exited := parted.joined (by rw [State.live, draining])
    exact past exited exited (by first | rfl | rw [State.live, draining]) rfl

theorem Parted.step (parted : Parted s) (taken : s.step cfg e = some s') : Parted s' := by
  cases e with
  | store event =>
    simp only [ClientWaits.step] at taken
    split at taken
    next allowed =>
      obtain ⟨store, done, rfl⟩ := Option.map_eq_some_iff.mp taken
      exact parted.stored allowed done
    next => cases taken
  | notify =>
    simp only [ClientWaits.step] at taken
    split at taken
    next =>
      cases taken
      exact ⟨fun _ => rfl, parted.idle, parted.joined⟩
    next => cases taken
  | spurious t =>
    simp only [ClientWaits.step] at taken
    split at taken
    next =>
      cases taken
      exact ⟨parted.paid, parted.idle, parted.joined⟩
    next => cases taken
  | test t =>
    simp only [ClientWaits.step] at taken
    split at taken
    next =>
      split at taken
      next =>
        cases taken
        exact ⟨parted.paid, parted.idle, parted.joined⟩
      next => cases taken
    next => cases taken

/-- Past the join a sleeper is not woken by any thread of the store. -/
theorem Parted.sleeps {t : Tid} (parted : Parted s) (dead : s.store.live = false) (asleep : s.asleep t = true)
    (other : e ≠ .spurious t) (taken : s.step cfg e = some s') : s'.store.live = false ∧ s'.asleep t = true := by
  have paid := parted.paid (parted.joined dead)
  cases e with
  | store event =>
    simp only [ClientWaits.step] at taken
    split at taken
    next =>
      obtain ⟨store, done, rfl⟩ := Option.map_eq_some_iff.mp taken
      have dead' : store.live = false := by
        rcases State.closer_step done with same | ⟨_, running, -⟩ | ⟨_, -, joining, -⟩ | ⟨_, -, closed⟩
        · rwa [State.live, same]
        · rw [State.live, running] at dead
          cases dead
        · rw [State.live, joining] at dead
          cases dead
        · rw [State.live, closed]
      refine ⟨dead', ?_⟩
      cases State.step_cases done with
      | backpressure _ _ live | pushed live =>
        rw [dead] at live
        cases live
      | call | searched | ret | flush | pool | close | joined | drain | closed => exact asleep
    next => cases taken
  | notify =>
    simp only [ClientWaits.step, paid] at taken
    cases taken
  | spurious u =>
    simp only [ClientWaits.step] at taken
    split at taken
    next =>
      cases taken
      have different : t ≠ u := by
        rintro rfl
        exact other rfl
      refine ⟨dead, ?_⟩
      simpa only [Function.update_of_ne different] using asleep
    next => cases taken
  | test u =>
    simp only [ClientWaits.step, dead] at taken
    split at taken
    · simp at taken
    · cases taken

variable {dir : Directory} {entries : List (FileName × Bytes)} {trace later : List ClientWaitsEvent}

/-- No client sleeps through its turn, and `close` leaves the sleepers behind. As long as `close` has not
joined the flush thread, a client that sleeps on a predicate that is true is one that the flush thread is about
to notify. Past the join nobody notifies any more: who sleeps then, sleeps on, but for a spurious wake-up. -/
theorem sleepers_attended
    (run : Run (Allowed (ClientWaits.step cfg) fun _ _ => True) (ClientWaits.openStore cfg dir entries) trace s) :
    (s.store.live = true → ∀ t cv, s.asleep t = true → (s.store.pcs t).cv = some cv → s.store.passes cfg cv = true →
      s.owed = some cv) ∧
    (s.store.live = false → ∀ t, s.asleep t = true →
      Run (Allowed (ClientWaits.step cfg) fun _ e => e ≠ .spurious t) s later s' → s'.asleep t = true) := by
  have reached := run.invariant (P := fun _ s => Attended cfg s ∧ Parted s)
    ⟨.openStore cfg dir entries, .openStore cfg dir entries⟩
    fun _ _ _ _ _ here taken => ⟨here.1.step taken.2, here.2.step taken.2⟩
  refine ⟨reached.1.owed, fun dead t asleep rest => ?_⟩
  have left := rest.invariant (P := fun _ s => Parted s ∧ s.store.live = false ∧ s.asleep t = true)
    ⟨reached.2, dead, asleep⟩
    fun _ _ _ _ _ here taken => ⟨here.1.step taken.2, here.1.sleeps here.2.1 here.2.2 taken.1 taken.2⟩
  exact left.2.2

/-- A barrier that comes behind the flush thread's last look at the queue: `close` writes its memtable and does not
wake it. -/
theorem sleepers_attended_late : ∃ s s' : ClientWaits, s.store.live = false ∧ s.asleep 0 = true ∧
    s'.store.closer = .closed ∧ s'.asleep 0 = true := by
  obtain ⟨s, run, dead, asleep, after⟩ : ∃ s, Run (Allowed (ClientWaits.step ⟨8, 1, 1, 0⟩) fun _ _ => True)
      (ClientWaits.openStore ⟨8, 1, 1, 0⟩ ∅ [])
      [.store (.call 0 (.put [1] [2] true)), .store (.ret 0 (.put [1] [2] true) (.bool true)),
        .store (.call 0 .writeBarrier), .store (.close 1), .store (.flush .exit), .store (.pushed 0),
        .store .joined] s ∧
      s.store.live = false ∧ s.asleep 0 = true ∧
      (([.store .drain, .store (.pool .check), .store (.pool (.create true true)), .store (.pool .insert),
        .store (.flush (.acquire true)), .store (.flush (.write none)), .store (.flush .publish),
        .store (.flush .finish), .store .closed] : List ClientWaitsEvent).foldlM
          (guarded (ClientWaits.step ⟨8, 1, 1, 0⟩) fun _ e => e ≠ .spurious 0) s).any
        (fun s' => s'.store.closer = .closed) := Run.exists_of_any (by decide +kernel)
  obtain ⟨s', rest, closed⟩ := Run.exists_of_any after
  exact ⟨s, s', dead, asleep, closed, (sleepers_attended run).2 dead 0 asleep rest⟩

end ClientWaits

end LSMIO
