import LSMIO.SessionFiles
import LSMIO.StorePhases

namespace LSMIO

/-- The thread a client event belongs to. -/
def Event.client : Event → Option Tid
  | .call t _ | .backpressure t | .searched t | .pushed t | .ret t _ _ | .close t => some t
  | .flush _ | .pool _ | .joined | .drain | .closed => none

/-- The steps of a session with one client, succeeding I/O, and mutations that fit the record format. -/
def Event.InSession (e : Event) : Prop :=
  e.intact = true ∧ e.opened = true ∧ (∀ entry ∈ e.mutation, Short entry) ∧ ∀ t ∈ e.client, t = 0

instance : DecidablePred Event.InSession := fun e =>
  inferInstanceAs (Decidable (e.intact = true ∧ e.opened = true ∧ (∀ entry ∈ e.mutation, Short entry) ∧
    ∀ t ∈ e.client, t = 0))

/-- The steps of the flush thread and of the pool's worker. -/
def Event.background : Event → Bool
  | .flush _ | .pool _ => true
  | _ => false

/-- The directories left by any number of sessions, from an empty one; each
session ends with a `close` that returns. -/
inductive Sessions : Directory → Prop
  | empty : Sessions ∅
  | session {cfg : Config} {dir : Directory} {listed : List (FileName × Bytes)} {trace : List Event} {s : State} :
      Sessions dir → cfg.preAllocBytes = 0 → listed.Perm dir.toList →
      Run (Allowed (State.step cfg) fun _ e => e.InSession) (State.openStore cfg dir listed) trace s →
      s.closer = .closed → Sessions s.dir

namespace State

variable {cfg : Config} {dir : Directory} {s s' : State} {trace : List Event}

/-- Once its client has called `close`, a session has no further step of the client. -/
theorem step_after_close {e : Event} (session : e.InSession) (idle : s.pcs 0 = .idle) (closing : s.closer ≠ .running)
    (taken : step cfg s e = some s') : e.mutation = none ∧ s'.pcs 0 = .idle ∧ s'.closer ≠ .running := by
  have own : ∀ t ∈ e.client, t = 0 := session.2.2.2
  cases step_cases taken with
  | call _ running => exact absurd running closing
  | backpressure entered =>
    obtain rfl := own _ rfl
    rw [idle] at entered
    cases entered
  | searched entered =>
    obtain rfl := own _ rfl
    rw [idle] at entered
    cases entered
  | pushed _ entered =>
    obtain rfl := own _ rfl
    rw [idle] at entered
    cases entered
  | ret _ returned =>
    obtain rfl := own _ rfl
    cases returned <;> simp_all
  | flush =>
    obtain ⟨pcs, closer⟩ := stepFlush_frame taken
    exact ⟨rfl, by rw [pcs, idle], by rwa [closer]⟩
  | pool => exact ⟨rfl, idle, closing⟩
  | close running => exact absurd running closing
  | joined =>
    refine ⟨rfl, ?_, by simp⟩
    split <;> exact idle
  | drain => exact ⟨rfl, idle, closing⟩
  | closed => exact ⟨rfl, idle, by simp⟩

theorem run_after_close (idle : s.pcs 0 = .idle) (closing : s.closer ≠ .running)
    (run : Run (Allowed (step cfg) fun _ e => e.InSession) s trace s') : mutations trace = [] := by
  refine (run.invariant (P := fun trace s => mutations trace = [] ∧ s.pcs 0 = .idle ∧ s.closer ≠ .running)
    ⟨rfl, idle, closing⟩ ?_).1
  rintro trace s e s' - ⟨silent, idle, closing⟩ ⟨session, taken⟩
  obtain ⟨noMutation, idle', closing'⟩ := step_after_close session idle closing taken
  refine ⟨?_, idle', closing'⟩
  rw [mutations_append, mutations_singleton, silent, noMutation]
  rfl

/-- The background threads land no mutation. -/
theorem run_background (run : Run (Allowed (step cfg) fun _ e => e.InSession ∧ e.background = true) s trace s') :
    mutations trace = [] := by
  refine run.invariant (P := fun trace _ => mutations trace = []) rfl ?_
  rintro trace s e s' - silent ⟨⟨-, background⟩, -⟩
  rw [mutations_append, mutations_singleton, silent]
  cases e with
  | flush event => rfl
  | pool event => rfl
  | _ => cases background

/-- Nothing is left in memory after a `close` that has returned. -/
theorem Phases.closed (phases : Phases s) (returned : s.closer = .closed) : s.hand = .idle ∧ s.memData = [] := by
  obtain ⟨drained, idle⟩ := phases.emptied returned
  have sealed : s.active.data = [] := phases.sealed (by rw [live, returned])
  exact ⟨idle, by simp [memData, drained, sealed]⟩

end State

theorem Event.InSession.fine {e : Event} (session : e.InSession) : e.intact = true ∧ e.opened = true :=
  ⟨session.1, session.2.1⟩

/-- Without preallocation no file of a session has padding. -/
theorem State.padding_padded {found : Padded} (none : ∀ f ∈ found, f.padding = 0) (s : State) (flushed : Flushed) :
    ∀ f ∈ s.padded 0 found flushed, f.padding = 0 := by
  intro f member
  simp only [State.padded, List.mem_append, List.mem_map] at member
  rcases member with ((inFound | ⟨_, -, rfl⟩) | inHand) | ⟨_, -, rfl⟩
  · exact none f inFound
  · simp [PaddedFile.flushed]
  · cases hand : s.hand <;> simp_all [Hand.padded, PaddedFile.flushed]
  · simp [PaddedFile.flushed]

/-- After any number of sessions the directory holds files without padding, numbered in order. -/
theorem Sessions.holds {dir : Directory} (sessions : Sessions dir) :
    ∃ filed : Padded, filed.Holds dir ∧ ∀ f ∈ filed, f.padding = 0 := by
  induction sessions with
  | empty => exact ⟨[], ⟨.empty, .nil, by simp, by simp [Padded.log]⟩, by simp⟩
  | @session cfg dir listed trace s _ noPrealloc listing run returned ih =>
    obtain ⟨found, holds, none⟩ := ih
    obtain ⟨flushed, inv, session⟩ := State.Session.of_run (fun _ _ allowed => allowed.fine) holds listing run
    obtain ⟨idle, drained⟩ := (State.Phases.of_run run).closed returned
    have short := State.mutations_short (fun _ _ allowed => allowed.2.2.1) run
    rw [noPrealloc] at session
    exact ⟨_, (session.holds inv holds short idle drained).1, s.padding_padded none flushed⟩

/-- What a session closes with is what the next one opens with: `get` after the
reopening gives for every key what it gave before the close, once the flush in flight there was done. -/
theorem reopen_preserves {cfg cfg' : Config} {dir : Directory} {listed listed' : List (FileName × Bytes)}
    {before quiet after : List Event} {p q s : State} (sessions : Sessions dir) (noPrealloc : cfg.preAllocBytes = 0)
    (listing : listed.Perm dir.toList)
    (opened : Run (Allowed (State.step cfg) fun _ e => e.InSession) (State.openStore cfg dir listed) before p)
    (settling : Run (Allowed (State.step cfg) fun _ e => e.InSession ∧ e.background = true) p quiet q)
    (idle : q.hand = .idle)
    (closing : Run (Allowed (State.step cfg) fun _ e => e.InSession) p ([.close 0] ++ after) s)
    (returned : s.closer = .closed) (listing' : listed'.Perm s.dir.toList) (key : Key) :
    (State.openStore cfg' s.dir listed').get key = q.get key := by
  obtain ⟨found, holds, none⟩ := sessions.holds
  have head := holds.openStore_head listing cfg
  -- The state before the close, with the flush in flight done.
  have settled := opened.append (settling.mono fun _ _ _ ⟨allowed, taken⟩ => ⟨allowed.1, taken⟩)
  obtain ⟨flushed, inv, session⟩ := State.Session.of_run (fun _ _ allowed => allowed.fine) holds listing settled
  have shown := session.get_eq inv holds
    (State.mutations_short (fun _ _ allowed => allowed.2.2.1) settled) head idle key
  -- The state after the close, in which no further mutation has landed.
  have whole := opened.append closing
  obtain ⟨flushed', inv', session'⟩ := State.Session.of_run (fun _ _ allowed => allowed.fine) holds listing whole
  rw [noPrealloc] at session'
  have short := State.mutations_short (fun _ _ allowed => allowed.2.2.1) whole
  obtain ⟨idle', drained⟩ := (State.Phases.of_run whole).closed returned
  obtain ⟨holds', log⟩ := session'.holds inv' holds short idle' drained
  have noMore : mutations ([.close 0] ++ after) = [] := by
    obtain ⟨closing₀, first, rest⟩ := closing.split
    have first : Run (Allowed (State.step cfg) fun _ e => e.InSession) p ([] ++ [.close 0]) closing₀ := first
    obtain ⟨p', begun, -, taken⟩ := first.snoc_inv
    obtain rfl := begun.nil_eq rfl
    simp only [State.step] at taken
    split at taken
    next may =>
      cases taken
      have silent : mutations after = [] := by
        refine State.run_after_close ?_ ?_ rest
        · exact may.2
        · simp
      rw [mutations_append, silent]
      rfl
    next => cases taken
  rw [holds'.get_openStore listing' cfg', Padded.recovered_eq_log (s.padding_padded none flushed'), log, shown,
    Padded.recovered_eq_log none, mutations_append before, mutations_append before quiet, noMore,
    State.run_background settling]

/-- No flush is in flight. -/
def Hand.isIdle : Hand → Bool
  | .idle => true
  | _ => false

theorem Hand.eq_idle {h : Hand} (idle : h.isIdle = true) : h = .idle := by
  cases h with
  | idle => rfl
  | _ => cases idle

/-- A value is put in a session and read in the next one. -/
theorem reopen_preserves_once : ∃ s q : State,
    (State.openStore ⟨100, 4, 2, 0⟩ s.dir s.dir.toList).get [1] = q.get [1] ∧ q.get [1] = some [7] := by
  obtain ⟨p, opened, rest, shown, idle⟩ : ∃ p, Run (Allowed (State.step ⟨100, 4, 2, 0⟩) fun _ e => e.InSession)
      (State.openStore ⟨100, 4, 2, 0⟩ ∅ []) [.call 0 (.put [1] [7] false), .ret 0 (.put [1] [7] false) (.bool true)] p ∧
      (([Event.close 0] ++ [Event.flush .exit, .joined, .pool .check, .pool (.create true true), .pool .insert, .drain,
        .flush (.acquire true), .flush (.write none), .flush .publish, .flush .finish, .closed]).foldlM
          (guarded (State.step ⟨100, 4, 2, 0⟩) fun _ e => e.InSession) p).any (fun s => s.closer = .closed) = true ∧
      p.get [1] = some [7] ∧ p.hand.isIdle = true :=
    Run.exists_of_any (by decide +kernel)
  obtain ⟨s, closing, returned⟩ := Run.exists_of_any rest
  exact ⟨s, p, reopen_preserves .empty rfl (.refl _) opened .start (Hand.eq_idle idle) closing returned (.refl _)
    [1], shown⟩

end LSMIO
