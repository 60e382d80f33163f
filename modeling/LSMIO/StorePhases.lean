import LSMIO.StoreSteps

namespace LSMIO.State

/-- How the phases of flushing and closing bear on the memtables: a flush in
progress is announced while the store is live, and after `close` has joined the
flush thread nothing is written any more. -/
structure Phases (s : State) : Prop where
  working : s.live = true → s.hand ≠ .idle → s.flushInProgress = true
  sealed : s.live = false → s.active.data = []
  emptied : s.closer = .closed → s.immutables = [] ∧ s.hand = .idle

theorem Phases.openStore (cfg : Config) (dir : Directory) (entries : List (FileName × Bytes)) :
    Phases (openStore cfg dir entries) where
  working := fun _ busy => absurd rfl busy
  sealed := fun dead => by cases dead
  emptied := fun shut => by cases shut

/-- A step of a live store that touches neither the flush nor the closing keeps the phases. -/
theorem Phases.of_live {s s' : State} (phases : Phases s) (live : s.live = true) (hand : s'.hand = s.hand)
    (flushInProgress : s'.flushInProgress = s.flushInProgress) (closer : s'.closer = s.closer) : Phases s' := by
  have live' : s'.live = true := by rwa [State.live, closer]
  refine ⟨fun _ busy => ?_, fun dead => ?_, fun shut => ?_⟩
  · rw [flushInProgress]
    exact phases.working live (hand ▸ busy)
  · rw [live'] at dead
    cases dead
  · rw [State.live, shut] at live'
    cases live'

variable {cfg : Config} {s s' : State}

/-- How far `close` has come after a step. -/
theorem closer_step {e : Event} (taken : step cfg s e = some s') :
    s'.closer = s.closer ∨ (∃ t, s.closer = .running ∧ s'.closer = .joining t) ∨
      (∃ t, e = .joined ∧ s.closer = .joining t ∧ s'.closer = .draining t) ∨
      ∃ t, s.closer = .draining t ∧ s'.closer = .closed := by
  cases step_cases taken with
  | ret _ returned => cases returned <;> exact .inl rfl
  | flush => exact .inl (stepFlush_frame taken).2
  | pushed => exact .inl (by split <;> rfl)
  | close running => exact .inr (.inl ⟨_, running, rfl⟩)
  | joined joining => exact .inr (.inr (.inl ⟨_, rfl, joining, rfl⟩))
  | closed draining => exact .inr (.inr (.inr ⟨_, draining, rfl⟩))
  | call | backpressure | searched | pool | drain => exact .inl rfl

/-- The steps of a flush within its memtable go from busy to busy. -/
theorem Phases.busy {s' : State} (phases : Phases s) (busy : s.hand ≠ .idle) (active : s'.active = s.active)
    (flushInProgress : s'.flushInProgress = s.flushInProgress) (closer : s'.closer = s.closer) : Phases s' where
  working := fun live' _ => flushInProgress ▸ phases.working (by rwa [State.live, ← closer]) busy
  sealed := fun dead => active ▸ phases.sealed (by rwa [State.live, ← closer])
  emptied := fun shut => absurd (phases.emptied (closer ▸ shut)).2 busy

theorem Phases.flush {event : FlushEvent} (phases : Phases s) (done : s.stepFlush event = some s') : Phases s' := by
  cases stepFlush_cases done with
  | pop _ _ live =>
    refine ⟨fun _ _ => rfl, phases.sealed, fun shut => ?_⟩
    have shut' : s.closer = .closed := shut
    rw [State.live, shut'] at live
    cases live
  | skip taken => exact phases.busy (by rw [taken]; simp) rfl rfl rfl
  | acquire _ taken => exact phases.busy (by rw [taken]; simp) rfl rfl rfl
  | write _ acquired => exact phases.busy (by rw [acquired]; simp) rfl rfl rfl
  | publish written => exact phases.busy (by rw [written]; simp) rfl rfl rfl
  | threw busy => exact phases.busy busy rfl rfl rfl
  | finish =>
    exact ⟨fun _ busy => absurd rfl busy, phases.sealed, fun shut => ⟨(phases.emptied shut).1, rfl⟩⟩
  | exit => exact ⟨phases.working, phases.sealed, phases.emptied⟩

theorem Phases.step {e : Event} (phases : Phases s) (taken : step cfg s e = some s') : Phases s' := by
  cases step_cases taken with
  | call _ running => exact phases.of_live (by rw [State.live, running]) rfl rfl rfl
  | backpressure _ _ live => exact phases.of_live live rfl rfl rfl
  | searched _ live => exact phases.of_live live rfl rfl rfl
  | pushed live => split <;> exact phases.of_live live rfl rfl rfl
  | ret live returned => cases returned <;> exact phases.of_live live rfl rfl rfl
  | flush => exact phases.flush taken
  | pool => exact ⟨phases.working, phases.sealed, phases.emptied⟩
  | close running =>
    have live : s.live = true := by rw [State.live, running]
    exact ⟨fun _ busy => phases.working live busy, fun dead => (by cases dead), fun shut => (by cases shut)⟩
  | joined => exact ⟨fun live => (by cases live), fun _ => active_rotateUnlessEmpty s, fun shut => (by cases shut)⟩
  | drain draining =>
    have dead : s.live = false := by rw [State.live, draining]
    refine ⟨fun live => ?_, fun _ => phases.sealed dead, fun shut => ?_⟩
    · have live' : s.live = true := live
      rw [dead] at live'
      cases live'
    · have shut' : s.closer = .closed := shut
      rw [shut'] at draining
      cases draining
  | closed draining idle drained =>
    have dead : s.live = false := by rw [State.live, draining]
    exact ⟨fun live => (by cases live), fun _ => phases.sealed dead, fun _ => ⟨drained, idle⟩⟩

theorem Phases.of_run {dir : Directory} {entries : List (FileName × Bytes)} {ok : State → Event → Prop}
    {trace : List Event} (run : Run (Allowed (State.step cfg) ok) (State.openStore cfg dir entries) trace s) :
    Phases s :=
  run.invariant (P := fun _ s => Phases s) (.openStore cfg dir entries)
    fun _ _ _ _ _ phases taken => phases.step taken.2

end LSMIO.State
