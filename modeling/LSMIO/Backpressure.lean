import LSMIO.StorePhases

namespace LSMIO

/-- The entry of a call fits into a memtable. -/
def Call.Fits (cfg : Config) (c : Call) : Prop :=
  ∀ entry ∈ c.mutation, entry.1.length + entry.2.length ≤ cfg.memtableMaxSizeBytes

instance (cfg : Config) (c : Call) : Decidable (c.Fits cfg) := inferInstanceAs (Decidable (∀ _ ∈ _, _))

namespace State

/-- The calls fit into memtables, and none closes the store. -/
def FittingCalls (cfg : Config) (_ : State) : Event → Prop
  | .call _ c => c.Fits cfg
  | .close _ => False
  | _ => True

instance (cfg : Config) : DecidableRel (FittingCalls cfg) := fun s e => by
  unfold FittingCalls
  split <;> infer_instance

/-- A thread is between the call and the return of `writeBarrier`. -/
def InBarrier (s : State) (t : Tid) : Prop := s.pcs t = .entered .writeBarrier ∨ s.pcs t = .waiting

/-- The bound on the memory for writes. -/
structure MemoryBounded (cfg : Config) (s : State) : Prop where
  sizes : ∀ m ∈ s.active :: s.immutables,
    m.sizeBytes = (m.data.map fun entry => entry.1.length + entry.2.length).sum ∧ m.sizeBytes ≤ cfg.memtableMaxSizeBytes
  queue : s.immutables.length ≤ cfg.maxImmutableMemtables + {t | s.InBarrier t}.ncard

/-- What a step does to the active memtable, the queue and the threads that wait at a barrier. -/
inductive QueueEffect (cfg : Config) (s s' : State) : Prop
  | kept (active : s'.active = s.active) (immutables : s'.immutables <:+ s.immutables)
      (waiting : ∀ t, s.pcs t = .waiting → s'.pcs t = .waiting)
  | passed (active : s'.active = s.active) (drained : s'.immutables = [])
  | added {t : Tid} {c : Call} {key : Key} {value : Value} (carrying : (s.pcs t).carried = some c)
      (entry : c.mutation = some (key, value))
      (room : s.active.sizeBytes + (key.length + value.length) ≤ cfg.memtableMaxSizeBytes ∨ s.active.sizeBytes = 0)
      (active : s'.active = s.active.add key value) (immutables : s'.immutables = s.immutables)
      (waiting : ∀ t, s.pcs t = .waiting → s'.pcs t = .waiting)
  | rotated {t : Tid} {c : Call} {key : Key} {value : Value} (carrying : (s.pcs t).carried = some c)
      (entry : c.mutation = some (key, value)) (room : s.immutables.length < cfg.maxImmutableMemtables)
      (active : s'.active = Memtable.new.add key value) (immutables : s'.immutables = s.immutables ++ [s.active])
  | pushed {t : Tid} (outside : s.pcs t ≠ .waiting) (pcs : s'.pcs = Function.update s.pcs t .waiting)
      (active : s'.active = s.active ∧ s'.immutables = s.immutables ∨
        s'.active = Memtable.new ∧ s'.immutables = s.immutables ++ [s.active])

variable {cfg : Config} {s s' : State}

theorem waiting_setPc {middle : State} {t : Tid} {pc : Pc} (before : middle.pcs = s.pcs) (outside : s.pcs t ≠ .waiting)
    (other : Tid) (waiting : s.pcs other = .waiting) : (middle.setPc t pc).pcs other = .waiting := by
  have elsewhere : other ≠ t := by
    rintro rfl
    exact outside waiting
  rw [pcs_setPc, if_neg elsewhere, before, waiting]

theorem ReturnStep.queue {t : Tid} {c : Call} {r : Result} (returned : ReturnStep cfg s t c r s') :
    QueueEffect cfg s s' := by
  cases returned with
  | added entered entry fits =>
    have carrying : (s.pcs t).carried = some c := by rw [entered, Pc.carried]
    simp only [needsRotation, gt_iff_lt, Bool.and_eq_false_iff, decide_eq_false_iff_not, not_lt] at fits
    exact .added carrying entry (by omega) rfl rfl (waiting_setPc rfl (by simp [entered]))
  | rotated carrying entry room =>
    have carried : (s.pcs t).carried = some c := by rcases carrying with entered | woken <;> simp [*, Pc.carried]
    exact .rotated carried entry room rfl rfl
  | found entered => exact .kept rfl (List.suffix_refl _) (waiting_setPc rfl (by simp [entered]))
  | answered missed => exact .kept rfl (List.suffix_refl _) (waiting_setPc rfl (by simp [missed]))
  | passed _ drained => exact .passed rfl drained

theorem queue_flush {event : FlushEvent} (done : s.stepFlush event = some s') :
    s'.active = s.active ∧ s'.immutables <:+ s.immutables := by
  cases stepFlush_cases done with
  | @pop m rest _ queue => exact ⟨rfl, queue ▸ List.suffix_cons m rest⟩
  | _ => exact ⟨rfl, List.suffix_refl _⟩

/-- The steps of a store that nobody closes. -/
theorem step_queue {e : Event} (running : s.closer = .running) (taken : step cfg s e = some s')
    (open' : ∀ t, e ≠ .close t) :
    QueueEffect cfg s s' ∧ s'.closer = .running := by
  cases step_cases taken with
  | call idle => exact ⟨.kept rfl (List.suffix_refl _) (waiting_setPc rfl (by simp [idle])), running⟩
  | backpressure entered => exact ⟨.kept rfl (List.suffix_refl _) (waiting_setPc rfl (by simp [entered])), running⟩
  | searched entered => exact ⟨.kept rfl (List.suffix_refl _) (waiting_setPc rfl (by simp [entered])), running⟩
  | @pushed t _ entered =>
    have outside : s.pcs t ≠ .waiting := by simp [entered]
    split
    · exact ⟨.pushed outside rfl (.inl ⟨rfl, rfl⟩), running⟩
    · exact ⟨.pushed outside rfl (.inr ⟨rfl, rfl⟩), running⟩
  | ret _ returned =>
    have closer : s'.closer = s.closer := by cases returned <;> rfl
    exact ⟨returned.queue, closer.trans running⟩
  | flush =>
    obtain ⟨active, immutables⟩ := queue_flush taken
    obtain ⟨pcs, closer⟩ := stepFlush_frame taken
    exact ⟨.kept active immutables fun t waiting => by rw [pcs, waiting], closer.trans running⟩
  | pool => exact ⟨.kept rfl (List.suffix_refl _) fun _ waiting => waiting, running⟩
  | close => exact absurd rfl (open' _)
  | joined joining =>
    rw [running] at joining
    cases joining
  | drain draining | closed draining =>
    rw [running] at draining
    cases draining

/-- What holds of a store that nobody closes and that gets only entries that fit. -/
structure Fitting (cfg : Config) (s : State) : Prop where
  running : s.closer = .running
  calls : ∀ t c, (s.pcs t).carried = some c → c.Fits cfg
  tables : ∀ m ∈ s.active :: s.immutables, m.sizeBytes ≤ cfg.memtableMaxSizeBytes
  inCalls : {t | s.pcs t ≠ .idle}.Finite
  queue : s.immutables.length ≤ cfg.maxImmutableMemtables + {t | s.pcs t = .waiting}.ncard

theorem Fitting.waiting_finite (fitting : Fitting cfg s) : {t | s.pcs t = .waiting}.Finite :=
  fitting.inCalls.subset fun t waiting => by simp [show s.pcs t = .waiting from waiting]

/-- The memtables stay within their limit. -/
theorem Fitting.tables_step (fitting : Fitting cfg s) (effect : QueueEffect cfg s s') :
    ∀ m ∈ s'.active :: s'.immutables, m.sizeBytes ≤ cfg.memtableMaxSizeBytes := by
  obtain ⟨active, queued⟩ := List.forall_mem_cons.mp fitting.tables
  have extended : ∀ m ∈ s.immutables ++ [s.active], m.sizeBytes ≤ cfg.memtableMaxSizeBytes := fun m member =>
    (List.mem_append.mp member).elim (queued m) fun last => List.mem_singleton.mp last ▸ active
  rw [List.forall_mem_cons]
  cases effect with
  | kept sameActive suffix waiting => exact ⟨sameActive ▸ active, fun m member => queued m (suffix.subset member)⟩
  | passed sameActive drained => exact ⟨sameActive ▸ active, by simp [drained]⟩
  | added carrying entry room newActive same waiting =>
    have fits := fitting.calls _ _ carrying _ entry
    refine ⟨?_, same ▸ queued⟩
    rw [newActive, Memtable.add]
    simp only at fits ⊢
    omega
  | rotated carrying entry room newActive grown =>
    have fits := fitting.calls _ _ carrying _ entry
    refine ⟨?_, grown ▸ extended⟩
    rw [newActive, Memtable.add, Memtable.new]
    simpa using fits
  | pushed outside pcs moved =>
    rcases moved with ⟨sameActive, same⟩ | ⟨newActive, grown⟩
    · exact ⟨sameActive ▸ active, same ▸ queued⟩
    · refine ⟨?_, grown ▸ extended⟩
      rw [newActive]
      exact Nat.zero_le _

/-- A memtable is queued past the limit only by a thread that then waits for the queue to be empty. -/
theorem Fitting.queue_step (fitting : Fitting cfg s) (finite : {t | s'.pcs t ≠ .idle}.Finite)
    (effect : QueueEffect cfg s s') :
    s'.immutables.length ≤ cfg.maxImmutableMemtables + {t | s'.pcs t = .waiting}.ncard := by
  have queue := fitting.queue
  have finite' : {t | s'.pcs t = .waiting}.Finite :=
    finite.subset fun t waiting => by simp [show s'.pcs t = .waiting from waiting]
  have more : (∀ t, s.pcs t = .waiting → s'.pcs t = .waiting) →
      {t | s.pcs t = .waiting}.ncard ≤ {t | s'.pcs t = .waiting}.ncard := fun kept => Set.ncard_le_ncard kept finite'
  cases effect with
  | kept active suffix waiting =>
    have shorter := suffix.length_le
    have grown := more waiting
    omega
  | passed active drained => simp [drained]
  | added carrying entry room active same waiting =>
    have grown := more waiting
    rw [same]
    omega
  | rotated carrying entry room active grown =>
    rw [grown, List.length_append, List.length_singleton]
    omega
  | @pushed t outside pcs moved =>
    have joined : {other | s'.pcs other = .waiting} = insert t {other | s.pcs other = .waiting} := by
      ext other
      change s'.pcs other = .waiting ↔ other = t ∨ s.pcs other = .waiting
      rw [pcs, Function.update_apply]
      split
      next here => simp [here]
      next elsewhere => simp [elsewhere]
    have before : t ∉ {other | s.pcs other = .waiting} := outside
    rw [joined, Set.ncard_insert_of_notMem before fitting.waiting_finite]
    rcases moved with ⟨-, same⟩ | ⟨-, grown⟩
    · rw [same]
      omega
    · rw [grown, List.length_append, List.length_singleton]
      omega

theorem Fitting.step {e : Event} (fitting : Fitting cfg s) (allowed : FittingCalls cfg s e)
    (taken : State.step cfg s e = some s') : Fitting cfg s' := by
  have stays : ∀ t, e ≠ .close t := by
    rintro t rfl
    exact allowed
  obtain ⟨effect, running⟩ := step_queue fitting.running taken stays
  obtain ⟨t, pc, pcs, carried⟩ := step_thread taken
  have finite : {other | s'.pcs other ≠ .idle}.Finite := by
    refine (fitting.inCalls.insert t).subset fun other busy => ?_
    by_cases here : other = t
    · exact .inl here
    · refine .inr ?_
      simpa [pcs, Function.update_apply, here] using busy
  refine ⟨running, fun other c now => ?_, fitting.tables_step effect, finite, fitting.queue_step finite effect⟩
  rw [pcs, Function.update_apply] at now
  split at now
  next =>
    rcases carried c now with before | rfl
    · exact fitting.calls t c before
    · exact allowed
  next => exact fitting.calls other c now

/-- In every run of a store that nobody closes and that gets only entries that
fit into a memtable, the memory for writes is bounded. -/
theorem memory_bounded (cfg : Config) (dir : Directory) (entries : List (FileName × Bytes)) (trace : List Event)
    (s : State) (run : Run (Allowed (step cfg) (FittingCalls cfg)) (openStore cfg dir entries) trace s) :
    MemoryBounded cfg s := by
  have fitting : Fitting cfg s := by
    refine run.invariant (P := fun _ s => Fitting cfg s) ⟨rfl, (fun _ _ now => by cases now), ?_, ?_, Nat.zero_le _⟩
      fun _ s e s' _ fitting taken => fitting.step taken.1 taken.2
    · rintro m member
      rw [List.mem_singleton.mp member]
      exact Nat.zero_le _
    · simp [openStore]
  refine ⟨fun m member => ⟨m.sizeBytes_eq, fitting.tables m member⟩, fitting.queue.trans (Nat.add_le_add_left ?_ _)⟩
  refine Set.ncard_le_ncard (fun t waiting => .inr waiting) (fitting.inCalls.subset fun t inside => ?_)
  rcases inside with entered | waiting
  · simp [entered]
  · simp [waiting]

theorem memory_bounded_queued :
    ∃ s, Run (Allowed (step ⟨8, 1, 0, 0⟩) (FittingCalls ⟨8, 1, 0, 0⟩)) (openStore ⟨8, 1, 0, 0⟩ ∅ [])
      [.call 1 (.put (ascii "a") (ascii "1234567") false),
        .ret 1 (.put (ascii "a") (ascii "1234567") false) (.bool true),
        .call 1 (.put (ascii "b") (ascii "1234567") false),
        .ret 1 (.put (ascii "b") (ascii "1234567") false) (.bool true), .call 2 .writeBarrier, .pushed 2] s ∧
      MemoryBounded ⟨8, 1, 0, 0⟩ s ∧ s.immutables.length = 2 := by
  refine (Run.exists_of_any (P := fun s => s.immutables.length = 2) ?_).imp fun s reached =>
    ⟨reached.1, memory_bounded _ _ _ _ s reached.1, reached.2⟩
  decide +kernel

end State

end LSMIO
