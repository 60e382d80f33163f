import LSMIO.FlushWait
import LSMIO.StorePhases

namespace LSMIO

namespace Monitor

variable {cfg : Config} {s s' : Monitor} {e : MonitorEvent}

/-- `close` does not notify while the flush thread stands between the test of its
predicate, which was false, and its sleep. -/
def NotifiedInTime (s : Monitor) (e : MonitorEvent) : Prop := e = .closeNotify → s.flusher ≠ .sleep

instance : DecidableRel NotifiedInTime := fun s e => inferInstanceAs (Decidable (e = .closeNotify → s.flusher ≠ .sleep))

/-- The thread is inside a call in which it may still rotate and notify. -/
def AbleToNotify (s : Monitor) (t : Tid) : Prop := match s.store.pcs t with
  | .entered (.get _) => False
  | .entered _ | .backpressure _ => True
  | .idle | .missed _ | .waiting => s.holder = some t ∧ s.owes

/-- `close` is blocked in its join, the flush thread is asleep, and nobody is to wake it. -/
structure MissedWakeUp (s : Monitor) : Prop where
  joining : ∃ t, s.store.closer = .joining t
  notified : s.closeNotified = true
  asleep : s.flusher = .asleep
  unable : ∀ t, ¬ s.AbleToNotify t

/-- The store moves by its own steps, but for calls that begin behind `close`; the join waits
for the notification before it. -/
theorem step_store (taken : s.step cfg e = some s') : s'.store = s.store ∨
    (∃ t c, e = .call t c ∧ s.store.pcs t = .idle ∧ s'.store = s.store.setPc t (.entered c)) ∨
    ∃ e', State.step cfg s.store e' = some s'.store ∧ (e' = .joined → s.closeNotified = true) := by
  have mapped : ∀ {e' : Event} {f : State → Monitor}, (∀ store, (f store).store = store) →
      (e' = .joined → s.closeNotified = true) → (s.store.step cfg e').map f = some s' →
      ∃ e', State.step cfg s.store e' = some s'.store ∧ (e' = .joined → s.closeNotified = true) := by
    intro e' f same notified moved
    obtain ⟨store, done, rfl⟩ := Option.map_eq_some_iff.mp moved
    exact ⟨e', by rw [same, done], notified⟩
  cases e <;> simp only [step] at taken
  case call t c =>
    split at taken
    next may =>
      cases taken
      exact .inr (.inl ⟨t, c, rfl, may.1, rfl⟩)
    next => cases taken
  case proceed =>
    split at taken
    · split at taken
      · exact .inr (.inr (mapped (fun _ => rfl) (by simp) taken))
      · exact .inr (.inr (mapped (fun _ => rfl) (by simp) taken))
    · cases taken
  case critical e' =>
    split at taken
    next inside =>
      refine .inr (.inr (mapped (fun _ => rfl) ?_ taken))
      rintro rfl
      exact absurd rfl inside.1
    next => cases taken
  case store e' =>
    split at taken
    next free =>
      refine .inr (.inr (mapped (fun _ => rfl) ?_ taken))
      rintro rfl
      simp only [unguarded, Bool.and_eq_true] at free
      exact free.1
    next => cases taken
  case finish | close =>
    split at taken
    · exact .inr (.inr (mapped (fun _ => rfl) (by simp) taken))
    · cases taken
  all_goals
    split at taken
    · cases taken
      exact .inl rfl
    · cases taken

theorem shuttingDown_iff : s.shuttingDown = true ↔ s.store.closer ≠ .running := by simp [shuttingDown]

theorem shuttingDown_step (shutting : s.shuttingDown = true) (taken : s.step cfg e = some s') :
    s'.shuttingDown = true := by
  rw [shuttingDown_iff] at shutting ⊢
  rcases step_store taken with same | ⟨t, c, -, -, same⟩ | ⟨e', done, -⟩
  · rwa [same]
  · rwa [same]
  · rcases State.closer_step done with same | ⟨t, -, same⟩ | ⟨t, -, -, same⟩ | ⟨t, -, same⟩
    · rwa [same]
    · simp [same]
    · simp [same]
    · simp [same]

/-- Behind the notification of `close`, the flush thread neither sleeps nor is about to. -/
def Told (s : Monitor) : Prop :=
  s.closeNotified = true → s.shuttingDown = true ∧ s.flusher ≠ .sleep ∧ s.flusher ≠ .asleep

/-- What a step does to the wait of the flush thread and to the notification of `close`. -/
inductive WaitStep (s : Monitor) (e : MonitorEvent) (s' : Monitor) : Prop
  | apart (flusher : s'.flusher = s.flusher) (told : s'.closeNotified = s.closeNotified)
  | awake (flusher : s'.flusher ≠ .sleep ∧ s'.flusher ≠ .asleep) (told : s'.closeNotified = s.closeNotified)
  | tested (flusher : s'.flusher = if s.shuttingDown || !s.store.immutables.isEmpty then .proceed else .sleep)
      (told : s'.closeNotified = s.closeNotified)
  | slept (falling : s.flusher = .sleep) (told : s'.closeNotified = s.closeNotified)
  | notified (flusher : s'.flusher = s.notifyOne.flusher) (told : s'.closeNotified = s.closeNotified)
  | closed (is : e = .closeNotify) (shutting : s.shuttingDown = true) (flusher : s'.flusher = s.notifyOne.flusher)
      (told : s'.closeNotified = true)

theorem step_wait (taken : s.step cfg e = some s') : WaitStep s e s' := by
  have mapped : ∀ {e' : Event} {f : State → Monitor}, (s.store.step cfg e').map f = some s' →
      (∀ store, WaitStep s e (f store)) → WaitStep s e s' := by
    intro e' f moved all
    obtain ⟨store, -, rfl⟩ := Option.map_eq_some_iff.mp moved
    exact all store
  cases e <;> simp only [step] at taken
  case call | enter | leave =>
    split at taken
    · cases taken
      exact .apart rfl rfl
    · cases taken
  case critical | close | store =>
    split at taken
    · exact mapped taken fun _ => .apart rfl rfl
    · cases taken
  case notify =>
    split at taken
    · cases taken
      exact .notified rfl rfl
    · cases taken
  case lock | spurious | relock =>
    split at taken
    · cases taken
      exact .awake ⟨by simp, by simp⟩ rfl
    · cases taken
  case test =>
    split at taken
    · cases taken
      exact .tested rfl rfl
    · cases taken
  case sleep =>
    split at taken
    next falling =>
      cases taken
      exact .slept falling rfl
    next => cases taken
  case proceed =>
    split at taken
    · split at taken
      · exact mapped taken fun _ => .awake ⟨by simp, by simp⟩ rfl
      · exact mapped taken fun _ => .awake ⟨by simp, by simp⟩ rfl
    · cases taken
  case finish =>
    split at taken
    · exact mapped taken fun _ => .awake ⟨by simp, by simp⟩ rfl
    · cases taken
  case closeNotify =>
    split at taken
    next shutting =>
      cases taken
      exact .closed rfl shutting.1 rfl rfl
    next => cases taken

theorem notifyOne_awake (s : Monitor) (outside : s.flusher ≠ .sleep) :
    s.notifyOne.flusher ≠ .sleep ∧ s.notifyOne.flusher ≠ .asleep := by
  unfold notifyOne
  split
  · simp
  next awake => exact ⟨outside, awake⟩

/-- The flush thread falls asleep only from a test that did not see the flag. -/
theorem Told.step (told : s.Told) (inTime : s.NotifiedInTime e) (taken : s.step cfg e = some s') : s'.Told := by
  intro now
  cases step_wait taken with
  | apart flusher same =>
    obtain ⟨shutting, awake⟩ := told (same ▸ now)
    exact ⟨shuttingDown_step shutting taken, flusher ▸ awake⟩
  | awake flusher same => exact ⟨shuttingDown_step (told (same ▸ now)).1 taken, flusher⟩
  | tested flusher same =>
    have shutting := (told (same ▸ now)).1
    refine ⟨shuttingDown_step shutting taken, ?_⟩
    rw [flusher, shutting]
    simp
  | slept falling same => exact absurd falling (told (same ▸ now)).2.1
  | notified flusher same =>
    obtain ⟨shutting, outside, -⟩ := told (same ▸ now)
    exact ⟨shuttingDown_step shutting taken, flusher ▸ notifyOne_awake s outside⟩
  | closed is shutting flusher _ =>
    exact ⟨shuttingDown_step shutting taken, flusher ▸ notifyOne_awake s (inTime is)⟩

variable {dir : Directory} {entries : List (FileName × Bytes)} {trace : List MonitorEvent}

theorem Told.of_run (run : Run (Allowed (Monitor.step cfg) NotifiedInTime) (openStore cfg dir entries) trace s) :
    s.Told :=
  run.invariant (P := fun _ s => s.Told) (fun now => by cases now) fun _ _ _ _ _ told taken => told.step taken.1 taken.2

/-- Where no call begins behind `close`, the monitor only orders the steps of the store. -/
theorem store_run (run : Run (Allowed (Monitor.step cfg) fun s e => ∀ t c, e = .call t c → s.store.closer = .running)
    (openStore cfg dir entries) trace s) :
    ∃ steps, Run (Allowed (State.step cfg) fun _ _ => True) (State.openStore cfg dir entries) steps s.store := by
  refine run.invariant (P := fun _ s => ∃ steps, Run (Allowed (State.step cfg) fun _ _ => True)
    (State.openStore cfg dir entries) steps s.store) ⟨[], .start⟩ ?_
  rintro trace s e s' - ⟨steps, before⟩ ⟨early, taken⟩
  rcases step_store taken with same | ⟨t, c, called, idle, same⟩ | ⟨e', done, -⟩
  · exact ⟨steps, same ▸ before⟩
  · have done : State.step cfg s.store (.call t c) = some s'.store := by
      rw [same]
      exact if_pos ⟨idle, early t c called⟩
    exact ⟨_, before.step ⟨trivial, done⟩⟩
  · exact ⟨_, before.step ⟨trivial, done⟩⟩

theorem closeNotified_step (told : s.closeNotified = true) (taken : s.step cfg e = some s') :
    s'.closeNotified = true := by
  cases step_wait taken with
  | closed _ _ _ now => exact now
  | apart _ same => rw [same, told]
  | awake _ same => rw [same, told]
  | tested _ same => rw [same, told]
  | slept _ same => rw [same, told]
  | notified _ same => rw [same, told]

/-- Until it has notified, `close` is at most on its way to the join. -/
theorem unjoined_of_run {ok : Monitor → MonitorEvent → Prop}
    (run : Run (Allowed (Monitor.step cfg) ok) (openStore cfg dir entries) trace s) (untold : s.closeNotified = false) :
    s.store.closer = .running ∨ ∃ t, s.store.closer = .joining t := by
  revert untold
  refine run.invariant (P := fun _ s => s.closeNotified = false → s.store.closer = .running ∨
    ∃ t, s.store.closer = .joining t)
    (fun _ => .inl rfl) ?_
  rintro trace s e s' - ih ⟨-, taken⟩ untold
  have before : s.closeNotified = false := by
    by_contra told
    exact absurd (closeNotified_step (by simpa using told) taken) (by simp [untold])
  rcases step_store taken with same | ⟨t, c, -, -, same⟩ | ⟨e', done, joined⟩
  · rw [same]
    exact ih before
  · rw [same]
    exact ih before
  · rcases State.closer_step done with same | ⟨t, -, same⟩ | ⟨t, rfl, -, -⟩ | ⟨t, draining, -⟩
    · rw [same]
      exact ih before
    · exact .inr ⟨t, same⟩
    · exact absurd (joined rfl) (by simp [before])
    · rcases ih before with running | ⟨_, joining⟩
      · exact absurd (running.symm.trans draining) (by simp)
      · exact absurd (joining.symm.trans draining) (by simp)

/-- As long as `close` does not notify within the window between the test and the sleep of
the flush thread, it is never left in its join with the flush thread asleep; and where it does,
with no client about to notify, the sleep that follows is such a state. -/
theorem close_wakes (run : Run (Allowed (Monitor.step cfg) NotifiedInTime) (openStore cfg dir entries) trace s) :
    ¬ s.MissedWakeUp ∧ ∀ s', s.step cfg .closeNotify = some s' → s.flusher = .sleep → (∀ t, ¬ s.AbleToNotify t) →
      ∃ s'', s'.step cfg .sleep = some s'' ∧ s''.MissedWakeUp := by
  constructor
  · intro missed
    obtain ⟨-, -, awake⟩ := Told.of_run run missed.notified
    exact awake missed.asleep
  · intro s' taken window unable
    simp only [Monitor.step] at taken
    split at taken
    next may =>
      cases taken
      have untold : s.closeNotified = false := by simpa using may.2
      have joining : ∃ t, s.store.closer = .joining t :=
        (unjoined_of_run run untold).resolve_left (shuttingDown_iff.mp may.1)
      refine ⟨_, if_pos (by simp [notifyOne, window]), joining, rfl, rfl, unable⟩
    next => cases taken

/-- A store whose flush thread sleeps when `close` notifies: it is awake before the join. -/
theorem close_wakes_asleep : ∃ s : Monitor, s.closeNotified = true ∧ ¬ s.MissedWakeUp := by
  obtain ⟨s, run, notified⟩ : ∃ s, Run (Allowed (Monitor.step ⟨100, 4, 0, 0⟩) NotifiedInTime)
      (openStore ⟨100, 4, 0, 0⟩ ∅ []) [.lock, .test, .sleep, .close 0, .closeNotify] s ∧ s.closeNotified = true :=
    Run.exists_of_any (by decide +kernel)
  exact ⟨s, notified, (close_wakes run).1⟩

/-- The flag is set and the notification sent between the test and the sleep. -/
theorem not_close_wakes : ∃ s, Run (Allowed (Monitor.step ⟨100, 4, 0, 0⟩) fun _ _ => True)
    (openStore ⟨100, 4, 0, 0⟩ ∅ []) [.lock, .test, .close 0, .closeNotify, .sleep] s ∧ s.MissedWakeUp := by
  refine ⟨_, Run.of_foldlM rfl, ⟨0, rfl⟩, rfl, rfl, fun t able => ?_⟩
  obtain ⟨none, -⟩ : none = some t ∧ false = true := able
  cases none

end Monitor

end LSMIO
