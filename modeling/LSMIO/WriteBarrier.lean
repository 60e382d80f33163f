import LSMIO.StoreInvariant
import LSMIO.StorePhases

namespace LSMIO.State

/-- The tables at the return of a barrier: they hold the mutations in order,
each once, at least those returned before the barrier began, and answer for
every key left alone since with its last mutation. -/
structure Published (first : State) (before during : List Event) (s : State) (flushed : Flushed) : Prop where
  head : s.head = flushed.nodes ++ first.head
  covers : mutations before <+: flushed.log
  inOrder : flushed.log <+: mutations (before ++ during)
  reads : ∀ key stored, lastValue (mutations before) key = some stored →
    (∀ value, (key, value) ∉ mutations during) → s.sstableGet key = some stored

/-- In every run with allowed steps, a barrier that returns has published all mutations before it. -/
def WriteBarrierPublishes (ok : State → Event → Prop) : Prop :=
  ∀ (cfg : Config) (dir : Directory) (entries : List (FileName × Bytes)) (before during : List Event) (t : Tid)
    (r : Result) (s : State),
    Run (Allowed (step cfg) ok) (openStore cfg dir entries)
      (before ++ [.call t .writeBarrier] ++ during ++ [.ret t .writeBarrier r]) s →
    ∃ flushed, Published (openStore cfg dir entries) before during s flushed

variable {cfg : Config} {ok : State → Event → Prop}

/-- While a thread waits at a barrier, the active memtable holds only mutations that landed since it came. -/
theorem waiting_active {first s : State} {trace : List Event} {t : Tid}
    (intact : ∀ s e, ok s e → e.intact = true) (run : Run (Allowed (step cfg) ok) first trace s)
    (outside : first.pcs t ≠ .waiting) (waiting : s.pcs t = .waiting) :
    s.active.data.length ≤ (mutations trace).length := by
  revert waiting
  refine run.invariant (P := fun trace s => s.pcs t = .waiting → s.active.data.length ≤ (mutations trace).length)
    (fun waiting => absurd waiting outside) ?_
  rintro trace s e s' - before ⟨allowed, taken⟩ waiting
  cases step_pcs taken t with
  | same kept =>
    have grown := (step_effect taken (intact s e allowed)).active_suffix.length_le
    have bound := before (kept ▸ waiting)
    rw [mutations_append, mutations_singleton]
    simp only [List.length_append] at grown ⊢
    omega
  | waiting now drained => simp [drained]
  | idle now => cases now.symm.trans waiting
  | entered c now => cases now.symm.trans waiting
  | backpressure c now => cases now.symm.trans waiting
  | missed key now absent => cases now.symm.trans waiting

/-- When the queue is empty and no flush is in progress, only the active memtable is unpublished. -/
theorem Phases.pending_eq {s : State} (phases : Phases s) (live : s.live = true) (drained : s.immutables = [])
    (quiet : s.flushInProgress = false) : s.pending = s.active.data := by
  have idle : s.hand = .idle := by
    by_contra busy
    rw [phases.working live busy] at quiet
    cases quiet
  simp [pending, memData, idle, drained, Hand.data]

/-- The published log at the return of a barrier, whatever the lengths. -/
theorem barrier_log {dir : Directory} {entries : List (FileName × Bytes)} {before during : List Event} {t : Tid}
    {r : Result} {s : State} (intact : ∀ s e, ok s e → e.intact = true)
    (run : Run (Allowed (step cfg) ok) (openStore cfg dir entries)
      (before ++ [.call t .writeBarrier] ++ during ++ [.ret t .writeBarrier r]) s) :
    ∃ flushed, Inv (openStore cfg dir entries)
        (before ++ [.call t .writeBarrier] ++ during ++ [.ret t .writeBarrier r]) s flushed ∧
      mutations before <+: flushed.log ∧ flushed.log <+: mutations (before ++ during) := by
  obtain ⟨flushed, inv⟩ := Inv.of_run intact run
  refine ⟨flushed, inv, ?_⟩
  obtain ⟨s₀, front, -, taken⟩ := run.snoc_inv
  obtain ⟨called, upToCall, back⟩ := front.split
  obtain ⟨_, -, -, calling⟩ := upToCall.snoc_inv
  simp only [step] at taken
  split at taken
  next live =>
    obtain ⟨rfl, waiting, -, drained, quiet⟩ := stepRet_writeBarrier taken
    have outside : called.pcs t ≠ .waiting := by
      cases step_cases calling with
      | call =>
        rw [pcs_setPc, if_pos rfl]
        simp
    have landed := waiting_active intact back outside waiting
    have pending : (s₀.setPc t .idle).pending = s₀.active.data :=
      (Phases.of_run front).pending_eq live drained quiet
    have log : mutations before ++ mutations during = flushed.log ++ s₀.active.data := by
      have all := inv.log
      simp only [pending, mutations_append, mutations_singleton] at all
      simpa [Event.mutation, Call.mutation] using all
    refine ⟨prefix_of_short_rest log.symm landed, ?_⟩
    rw [mutations_append, log]
    exact List.prefix_append ..
  next => cases taken

/-- A barrier that returns has published all mutations before it in every run
whose mutations fit the record format. -/
theorem writeBarrierPublishes_of_short
    (fits : ∀ s e, ok s e → e.intact = true ∧ ∀ entry ∈ e.mutation, Short entry) : WriteBarrierPublishes ok := by
  intro cfg dir entries before during t r s run
  obtain ⟨flushed, inv, covers, inOrder⟩ := barrier_log (fun s e allowed => (fits s e allowed).1) run
  refine ⟨flushed, inv.head, covers, inOrder, fun key stored last untouched => ?_⟩
  have short := mutations_short (fun s e allowed => (fits s e allowed).2) run
  rw [mutations_append] at inOrder
  rw [inv.sstableGet_eq short, lastValue_of_between covers inOrder untouched, last]
  rfl

/-- The first mutation lands in the empty active memtable, whatever its size. -/
theorem first_put (cfg : Config) (key : Key) (value : Value) :
    List.foldlM (guarded (step cfg) fun _ e => e.intact = true) (openStore cfg ∅ [])
        [.call 0 (.put key value false), .ret 0 (.put key value false) (.bool true)] =
      some ((((openStore cfg ∅ []).setPc 0 (.entered (.put key value false))).addActive key value).setPc 0 .idle) := by
  simp [guarded, Event.intact, step, stepRet, Call.mutation, batchMutation, live, openStore, setPc, needsRotation,
    Memtable.new]

/-- A run in which one put is published and a barrier after it returns. -/
theorem exists_published (value : Value) : ∃ s, Run (Allowed (step ⟨100, 4, 2, 0⟩) fun _ e => e.intact = true)
    (openStore ⟨100, 4, 2, 0⟩ ∅ [])
      ([Event.call 0 (.put [1] value false), .ret 0 (.put [1] value false) (.bool true)] ++
      [Event.call 1 .writeBarrier] ++ [Event.pushed 1, .pool .check, .pool (.create true true), .pool .insert,
        .flush .pop, .flush (.acquire true), .flush (.write none), .flush .publish, .flush .finish] ++
      [Event.ret 1 .writeBarrier (.bool true)]) s := by
  have later := Option.isSome_iff_exists.mp (show ((List.foldlM
      (guarded (step ⟨100, 4, 2, 0⟩) fun _ e => e.intact = true)
      ((((openStore ⟨100, 4, 2, 0⟩ ∅ []).setPc 0 (.entered (.put [1] value false))).addActive [1] value).setPc 0 .idle)
      ([Event.call 1 .writeBarrier] ++ [Event.pushed 1, .pool .check, .pool (.create true true), .pool .insert,
        .flush .pop, .flush (.acquire true), .flush (.write none), .flush .publish, .flush .finish] ++
        [Event.ret 1 .writeBarrier (.bool true)])).isSome = true) from rfl)
  obtain ⟨s, later⟩ := later
  exact ⟨s, by simpa only [List.append_assoc] using (Run.of_foldlM (first_put _ [1] value)).append (.of_foldlM later)⟩

theorem exists_published_short : ∃ s,
    Run (Allowed (step ⟨100, 4, 2, 0⟩) fun _ e => e.intact = true ∧ ∀ entry ∈ e.mutation, Short entry)
      (openStore ⟨100, 4, 2, 0⟩ ∅ []) ([Event.call 0 (.put [1] [7] false), .ret 0 (.put [1] [7] false) (.bool true)] ++
        [Event.call 1 .writeBarrier] ++ [Event.pushed 1, .pool .check, .pool (.create true true), .pool .insert,
          .flush .pop, .flush (.acquire true), .flush (.write none), .flush .publish, .flush .finish] ++
        [Event.ret 1 .writeBarrier (.bool true)]) s := by
  refine (Run.exists_of_any (P := fun _ => True) ?_).imp fun _ found => found.1
  decide +kernel

/-- A barrier after one put. -/
theorem writeBarrierPublishes_once : ∃ s flushed, Published (openStore ⟨100, 4, 2, 0⟩ ∅ [])
    [.call 0 (.put [1] [7] false), .ret 0 (.put [1] [7] false) (.bool true)]
    [.pushed 1, .pool .check, .pool (.create true true), .pool .insert, .flush .pop, .flush (.acquire true),
      .flush (.write none), .flush .publish, .flush .finish] s flushed := by
  obtain ⟨s, run⟩ := exists_published_short
  exact ⟨s, writeBarrierPublishes_of_short (fun _ _ allowed => allowed) _ _ _ _ _ _ _ _ run⟩

/-- A value of 2 ^ 32 bytes is stored with the length 0: no record reads back as it. -/
theorem not_writeBarrierPublishes : ¬ WriteBarrierPublishes fun _ e => e.intact = true := by
  intro always
  obtain ⟨value, long⟩ : ∃ value : Value, value.length = 2 ^ 32 := ⟨List.replicate (2 ^ 32) 0, List.length_replicate⟩
  obtain ⟨s, run⟩ := exists_published value
  obtain ⟨flushed, published⟩ := always _ _ _ _ _ _ _ _ run
  have found := published.reads [1] value rfl fun _ => List.not_mem_nil
  have short := (SSTableManager.get_short found).2
  simp only [long] at short
  omega

end LSMIO.State
