import LSMIO.PrefixScan
import LSMIO.Reopen

namespace LSMIO

/-- What a call leaves under its key for the caller: the value put, or nothing. -/
def Call.outcome : Call → Option (Key × Option Value)
  | .put key value _ => some (key, some value)
  | .del key _ => some (key, none)
  | _ => none

/-- The calls that landed in a run, oldest first. -/
def outcomes (trace : List Event) : List (Key × Option Value) := trace.filterMap fun
  | .ret _ c _ => c.outcome
  | _ => none

/-- The entry with which the store keeps what a call leaves. -/
def stored (outcome : Key × Option Value) : Key × Value := (outcome.1, outcome.2.getD MEMTABLE_TOMBSTONE)

theorem mutations_eq_stored (trace : List Event) : mutations trace = (outcomes trace).map stored := by
  rw [mutations, outcomes, List.map_filterMap]
  refine List.filterMap_congr fun e _ => ?_
  cases e with
  | ret t c r => cases c <;> rfl
  | _ => rfl

theorem lastValue_stored (calls : List (Key × Option Value)) (key : Key) :
    lastValue (calls.map stored) key = (lastValue calls key).map fun outcome => outcome.getD MEMTABLE_TOMBSTONE :=
  lastValue_map (fun outcome : Option Value => outcome.getD MEMTABLE_TOMBSTONE) calls key

namespace State

/-- The file that a step has written. -/
def writesTo (s s' : State) : Padded := match s.hand, s'.hand with
  | .acquired m id, .written _ _ _ => [.flushed s.pool.preAllocationSize id m.data]
  | _, _ => []

/-- One step of a run, with the files written so far. -/
def track (cfg : Config) (sofar : Option State × Padded) (e : Event) : Option State × Padded :=
  match sofar.1.bind fun s => (step cfg s e).map fun s' => (s, s') with
  | some (s, s') => (some s', sofar.2 ++ s.writesTo s')
  | none => (none, sofar.2)

/-- The files that a run writes, and the entries it writes to them. -/
def written (cfg : Config) (first : State) (trace : List Event) : Padded := (trace.foldl (track cfg) (some first, [])).2

variable {cfg : Config} {ok : State → Event → Prop} {first s s' : State} {trace : List Event} {e : Event}

theorem track_run (run : Run (Allowed (step cfg) ok) first trace s) :
    (trace.foldl (track cfg) (some first, [])).1 = some s := by
  induction run with
  | start => rfl
  | step _ taken ih =>
    rw [List.foldl_append, List.foldl_cons, List.foldl_nil, track, ih, Option.bind_some, taken.2]
    rfl

theorem written_step (run : Run (Allowed (step cfg) ok) first trace s) (taken : step cfg s e = some s') :
    written cfg first (trace ++ [e]) = written cfg first trace ++ s.writesTo s' := by
  rw [written, List.foldl_append, List.foldl_cons, List.foldl_nil, track, track_run run, Option.bind_some, taken]
  rfl

/-- The file in the flush's hands that has its records. -/
def handWritten (size : Nat) (s : State) : Padded := match s.hand with
  | .written m id _ => [.flushed size id m.data]
  | _ => []

end State

/-- The directories left by any number of sessions, from an empty one, with
the calls that landed and the files; each session ends with a `close` that returns. -/
inductive History (ok : Config → Prop) : List (Key × Option Value) → Padded → Directory → Prop
  | empty : History ok [] [] ∅
  | session {cfg : Config} {dir : Directory} {listed : List (FileName × Bytes)} {calls : List (Key × Option Value)}
      {found : Padded} {trace : List Event} {s : State} : History ok calls found dir → ok cfg → listed.Perm dir.toList →
      Run (Allowed (State.step cfg) fun _ e => e.InSession) (State.openStore cfg dir listed) trace s →
        s.closer = .closed →
      History ok (calls ++ outcomes trace)
        (found ++ State.written cfg (State.openStore cfg dir listed) trace ++
          s.pool.ready.map fun id => .flushed cfg.preAllocBytes id []) s.dir

namespace State

variable {cfg : Config} {dir : Directory} {listed : List (FileName × Bytes)} {found : Padded} {first s s' : State}
  {trace : List Event} {flushed flushed' : Flushed} {e : Event} {size : Nat}

/-- A session keeps the log of the files written next to the list of the flushes. -/
theorem Session.written_kept (session : Session size found first s flushed) (inv : Inv first trace s flushed)
    (opened : e.opened = true) (effect : Effect s e s') :
    ∃ flushed', Inv first (trace ++ [e]) s' flushed' ∧ Session size found first s' flushed' ∧
      (flushed.reverse.map fun table => PaddedFile.flushed size table.1 table.2) ++ s.handWritten size ++
        s.writesTo s' =
        (flushed'.reverse.map fun table => PaddedFile.flushed size table.1 table.2) ++ s'.handWritten size := by
  cases effect with
  | memory done =>
    refine ⟨flushed, inv.memory done, session.memory done, ?_⟩
    rcases done.hand with same | ⟨without, without'⟩
    · simp only [handWritten, writesTo, same]
      cases s.hand <;> simp
    · simp only [handWritten, writesTo]
      cases hand : s.hand <;> cases hand' : s'.hand <;> simp_all [Hand.ids]
  | acquired silent done =>
    refine ⟨flushed, inv.acquired silent done, session.acquired done, ?_⟩
    simp [handWritten, writesTo, done.taken, done.hand]
  | written silent done =>
    refine ⟨flushed, inv.wrote silent done, session.wrote inv done, ?_⟩
    simp [handWritten, writesTo, done.acquired, done.hand, session.preAlloc]
  | published silent done =>
    refine ⟨_, inv.published silent done, session.published done, ?_⟩
    simp [handWritten, writesTo, done.written, done.hand]
  | pooled same done =>
    refine ⟨flushed, inv.pooled same done, session.pooled inv same opened done, ?_⟩
    simp only [handWritten, writesTo, done.hand]
    cases s.hand <;> simp

theorem Session.of_run_written (holds : found.Holds dir) (listing : listed.Perm dir.toList)
    (run : Run (Allowed (step cfg) fun _ e => e.InSession) (State.openStore cfg dir listed) trace s) :
    ∃ flushed, Inv (State.openStore cfg dir listed) trace s flushed ∧
      Session cfg.preAllocBytes found (State.openStore cfg dir listed) s flushed ∧
      written cfg (State.openStore cfg dir listed) trace =
        (flushed.reverse.map fun table => PaddedFile.flushed cfg.preAllocBytes table.1 table.2) ++
          s.handWritten cfg.preAllocBytes := by
  refine run.invariant (P := fun trace s => ∃ flushed, Inv (State.openStore cfg dir listed) trace s flushed ∧
    Session cfg.preAllocBytes found (State.openStore cfg dir listed) s flushed ∧
    written cfg (State.openStore cfg dir listed) trace =
      (flushed.reverse.map fun table => PaddedFile.flushed cfg.preAllocBytes table.1 table.2) ++
      s.handWritten cfg.preAllocBytes)
    ⟨[], .initial (openStore_pending ..) rfl rfl, .openStore holds listing, rfl⟩ ?_
  rintro trace s e s' front ⟨flushed, inv, session, files⟩ ⟨allowed, taken⟩
  obtain ⟨intact, opened⟩ := allowed.fine
  obtain ⟨flushed', inv', session', kept⟩ := session.written_kept inv opened (step_effect taken intact)
  exact ⟨flushed', inv', session', by rw [written_step front taken, files, kept]⟩

end State

/-- What the sessions leave: the files, with the entries of all calls. -/
theorem History.holds {ok : Config → Prop} {calls : List (Key × Option Value)} {filed : Padded} {dir : Directory}
    (history : History ok calls filed dir) : filed.Holds dir ∧ filed.log = calls.map stored := by
  induction history with
  | empty => exact ⟨⟨.empty, .nil, by simp, by simp [Padded.log]⟩, rfl⟩
  | @session cfg dir listed calls found trace s _ _ listing run returned ih =>
    obtain ⟨holds, log⟩ := ih
    obtain ⟨flushed, inv, session, files⟩ := State.Session.of_run_written holds listing run
    obtain ⟨idle, drained⟩ := (State.Phases.of_run run).closed returned
    have short := State.mutations_short (fun _ _ allowed => allowed.2.2.1) run
    obtain ⟨holds', log'⟩ := session.holds inv holds short idle drained
    have whole : found ++ State.written cfg (State.openStore cfg dir listed) trace ++
        (s.pool.ready.map fun id => PaddedFile.flushed cfg.preAllocBytes id []) =
          s.padded cfg.preAllocBytes found flushed := by
      rw [files, State.padded, State.handWritten, idle]
      simp [Hand.padded]
    rw [whole, log', log, mutations_eq_stored, List.map_append]
    exact ⟨holds', rfl⟩

/-- Without preallocation no file has padding. -/
theorem History.padding {calls : List (Key × Option Value)} {filed : Padded} {dir : Directory}
    (history : History (fun cfg => cfg.preAllocBytes = 0) calls filed dir) : ∀ f ∈ filed, f.padding = 0 := by
  induction history with
  | empty => simp
  | @session cfg dir listed calls found trace s before none listing run returned ih =>
    obtain ⟨holds, -⟩ := before.holds
    obtain ⟨flushed, -, -, files⟩ := State.Session.of_run_written holds listing run
    obtain ⟨idle, -⟩ := (State.Phases.of_run run).closed returned
    intro f member
    rw [files, State.handWritten, idle, none] at member
    simp only [List.append_nil, List.mem_append, List.mem_map] at member
    rcases member with (inFound | ⟨_, -, rfl⟩) | ⟨_, -, rfl⟩
    · exact ih f inFound
    · simp [PaddedFile.flushed]
    · simp [PaddedFile.flushed]

namespace Padded

/-- Every file with room for a record in its padding is older than some file
in which an entry has the empty key. -/
def Harmless (filed : Padded) : Prop :=
  ∀ older f newer, filed = older ++ f :: newer → 8 ≤ f.padding → ∃ g ∈ newer, [] ∈ g.data.map Prod.fst

theorem harmless_concat (filed : Padded) (f : PaddedFile) :
    Harmless (filed ++ [f]) ↔ ¬ 8 ≤ f.padding ∧ ([] ∈ f.data.map Prod.fst ∨ filed.Harmless) := by
  constructor
  · intro harmless
    refine ⟨fun padded => ?_, or_iff_not_imp_left.mpr fun absent older g newer whole padded => ?_⟩
    · obtain ⟨g, member, -⟩ := harmless filed f [] rfl padded
      cases member
    · obtain ⟨h, member, inFile⟩ := harmless older g (newer ++ [f]) (by simp [whole]) padded
      rcases List.mem_append.mp member with behind | last
      · exact ⟨h, behind, inFile⟩
      · exact absurd (List.mem_singleton.mp last ▸ inFile) absent
  · rintro ⟨noRoom, rest⟩ older g newer whole padded
    rcases List.eq_nil_or_concat newer with rfl | ⟨newer, last, rfl⟩
    · obtain ⟨-, same⟩ := List.append_inj' whole rfl
      cases same
      exact absurd padded noRoom
    · rw [List.concat_eq_append, ← List.cons_append, ← List.append_assoc] at whole
      obtain ⟨front, same⟩ := List.append_inj' whole rfl
      cases same
      rcases rest with here | before
      · exact ⟨f, by simp, here⟩
      · obtain ⟨h, member, inFile⟩ := before older g newer front padded
        exact ⟨h, by simp [member], inFile⟩

/-- What recovery finds under the empty key, and under any other key. -/
theorem lastValue_recovered (filed : Padded) :
    (∀ key ≠ [], lastValue filed.recovered key = lastValue filed.log key) ∧
      (filed.Harmless → lastValue filed.recovered [] = lastValue filed.log []) ∧
      (¬ filed.Harmless → lastValue filed.recovered [] = some []) := by
  induction filed using List.reverseRecOn with
  | nil => exact ⟨fun _ _ => rfl, fun _ => rfl, fun harm => absurd (fun older f newer whole => by simp at whole) harm⟩
  | append_singleton filed f ih =>
    obtain ⟨others, harmless, harmful⟩ := ih
    have one : recovered [f] = f.recovered ∧ log [f] = f.data := by simp [recovered, log]
    simp only [recovered_append, log_append, lastValue_append, one, f.lastValue_recovered, harmless_concat]
    refine ⟨fun key present => ?_, fun hidden => ?_, fun harm => ?_⟩
    · rw [if_neg fun both => present both.2, others key present]
    · obtain ⟨noRoom, rest⟩ := hidden
      rw [if_neg fun both => noRoom both.1]
      rcases rest with here | before
      · obtain ⟨⟨_, value⟩, member, rfl⟩ := List.mem_map.mp here
        obtain ⟨last, found⟩ := Option.ne_none_iff_exists'.mp (lastValue_ne_none member)
        rw [found, Option.some_or, Option.some_or]
      · rw [harmless before]
    · by_cases padded : 8 ≤ f.padding
      · rw [if_pos ⟨padded, trivial⟩, Option.some_or]
      · obtain ⟨absent, before⟩ := not_or.mp fun rest => harm ⟨padded, rest⟩
        have none : lastValue f.data [] = none := lastValue_eq_none_iff.mpr fun value member =>
          absent (List.mem_map_of_mem (f := Prod.fst) member)
        rw [if_neg fun both => padded both.1, none, Option.none_or, harmful before]

end Padded

namespace State

/-- Just after the opening, all that `getPrefix` gives is determined by `get`. -/
theorem getPrefix_openStore {cfg cfg' : Config} {dir dir' : Directory} {listed listed' : List (FileName × Bytes)}
    (same : ∀ key, (openStore cfg dir listed).get key = (openStore cfg' dir' listed').get key) (prefixKey : Key) :
    (openStore cfg dir listed).getPrefix prefixKey = (openStore cfg' dir' listed').getPrefix prefixKey := by
  have visible : ∀ (cfg : Config) (dir : Directory) (listed : List (FileName × Bytes)) (key : Key),
      visible (((openStore cfg dir listed).oldestMemtableGet key).or ((openStore cfg dir listed).sstableGet key)) =
        (openStore cfg dir listed).get key := fun _ _ _ _ => rfl
  have pairs : ((openStore cfg dir listed).getPrefix prefixKey).1 =
    ((openStore cfg' dir' listed').getPrefix prefixKey).1 := by
    refine OrderedMap.eq_of_ascending (getPrefix_ascending _ _) (getPrefix_ascending _ _) fun entry => ?_
    obtain ⟨key, value⟩ := entry
    rw [mem_getPrefix_iff, mem_getPrefix_iff, visible, visible, same]
  refine Prod.ext pairs ?_
  rw [Bool.eq_iff_iff, getPrefix_flag, getPrefix_flag, pairs]

end State

/-- The reopened stores show the same, to `get` and to `getPrefix`. -/
def SameReopened (dir dir' : Directory) : Prop :=
  ∀ (cfg cfg' : Config) (listed listed' : List (FileName × Bytes)), listed.Perm dir.toList → listed'.Perm dir'.toList →
    (∀ key, (State.openStore cfg dir listed).get key = (State.openStore cfg' dir' listed').get key) ∧
      ∀ prefixKey, (State.openStore cfg dir listed).getPrefix prefixKey =
        (State.openStore cfg' dir' listed').getPrefix prefixKey

/-- Preallocation shows after a reopening exactly when some padding reads as a
record that no later entry under the empty key hides, and that key does not hold the empty value anyway. -/
theorem prealloc_unobservable_iff {calls : List (Key × Option Value)} {filed filed' : Padded} {dir dir' : Directory}
    (history : History (fun _ => True) calls filed dir)
    (without : History (fun cfg => cfg.preAllocBytes = 0) calls filed' dir') :
    SameReopened dir dir' ↔ lastValue calls [] = some (some []) ∨ filed.Harmless := by
  obtain ⟨holds, log⟩ := history.holds
  obtain ⟨holds', log'⟩ := without.holds
  obtain ⟨others, harmless, harmful⟩ := filed.lastValue_recovered
  have logged : filed'.recovered = calls.map stored := (Padded.recovered_eq_log without.padding).trans log'
  -- What the two stores show of a key comes down to what recovery finds in their files.
  have reduced : SameReopened dir dir' ↔ ∀ key, contents filed.recovered key = contents (calls.map stored) key := by
    constructor
    · intro same key
      have shown := (same ⟨0, 0, 0, 0⟩ ⟨0, 0, 0, 0⟩ _ _ (.refl _) (.refl _)).1 key
      rwa [holds.get_openStore (.refl _), holds'.get_openStore (.refl _), logged] at shown
    · intro same cfg cfg' listed listed' listing listing'
      have shown : ∀ key, (State.openStore cfg dir listed).get key = (State.openStore cfg' dir' listed').get key := by
        intro key
        rw [holds.get_openStore listing, holds'.get_openStore listing', logged, same]
      exact ⟨shown, State.getPrefix_openStore shown⟩
  have atEmpty : SameReopened dir dir' ↔ contents filed.recovered [] = contents (calls.map stored) [] := by
    rw [reduced]
    refine ⟨fun same => same [], fun same key => ?_⟩
    by_cases empty : key = []
    · rw [empty, same]
    · rw [contents, contents, others key empty, log]
  rw [atEmpty]
  by_cases harm : filed.Harmless
  · simp only [contents, harmless harm, log, harm, or_true]
  · have blank : visible (some []) = some [] := by decide
    simp only [contents, harmful harm, harm, or_false, blank]
    rw [eq_comm, visible_eq_some_iff, lastValue_stored]
    cases lastValue calls [] with
    | none => simp
    | some outcome =>
      cases outcome with
      | none => simp [MEMTABLE_TOMBSTONE, ascii]
      | some value =>
        simp only [Option.map_some, Option.getD_some, Option.some.injEq, and_iff_left_iff_imp]
        rintro -
        decide

/-- The empty value under the empty key reads back as the padding does. -/
theorem prealloc_unobservable_emptyValue : ∃ s s' : State, SameReopened s.dir s'.dir ∧
    s.dir[fileName 2]? = some (List.replicate 16 0) ∧ s'.dir[fileName 2]? = some [] := by
  obtain ⟨s, run, returned, padded⟩ :
    ∃ s, Run (Allowed (State.step (.ofGlobal ⟨16, 4, 2, true⟩)) fun _ e => e.InSession)
      (State.openStore (.ofGlobal ⟨16, 4, 2, true⟩) ∅ [])
        [.call 0 (.put [] [] false), .ret 0 (.put [] [] false) (.bool true),
        .pool .check, .pool (.create true true), .pool .insert, .pool .check, .pool (.create true true), .pool .insert,
        .close 0, .flush .exit, .joined, .drain, .flush (.acquire true), .flush (.write none), .flush .publish,
        .flush .finish, .closed] s ∧ s.closer = .closed ∧ s.dir[fileName 2]? = some (List.replicate 16 0) :=
    Run.exists_of_any (by decide +kernel)
  obtain ⟨s', run', returned', empty⟩ :
    ∃ s, Run (Allowed (State.step (.ofGlobal ⟨16, 4, 2, false⟩)) fun _ e => e.InSession)
      (State.openStore (.ofGlobal ⟨16, 4, 2, false⟩) ∅ [])
        [.call 0 (.put [] [] false), .ret 0 (.put [] [] false) (.bool true),
        .pool .check, .pool (.create true true), .pool .insert, .pool .check, .pool (.create true true), .pool .insert,
        .close 0, .flush .exit, .joined, .drain, .flush (.acquire true), .flush (.write none), .flush .publish,
        .flush .finish, .closed] s ∧ s.closer = .closed ∧ s.dir[fileName 2]? = some [] :=
    Run.exists_of_any (by decide +kernel)
  have same := prealloc_unobservable_iff (.session .empty trivial (.refl _) run returned)
    (.session .empty (by decide) (.refl _) run' returned')
  exact ⟨s, s', same.mpr (.inl (by decide +kernel)), padded, empty⟩

/-- After one put of another key, the padding of its file brings up the empty key. -/
theorem not_prealloc_unobservable : ¬ ∀ (calls : List (Key × Option Value)) (filed filed' : Padded)
    (dir dir' : Directory),
    History (fun _ => True) calls filed dir → History (fun cfg => cfg.preAllocBytes = 0) calls filed' dir' →
      SameReopened dir dir' := by
  intro always
  obtain ⟨s, run, returned, shown⟩ : ∃ s, Run (Allowed (State.step (.ofGlobal ⟨32, 4, 1, true⟩)) fun _ e => e.InSession)
      (State.openStore (.ofGlobal ⟨32, 4, 1, true⟩) ∅ [])
        [.call 0 (.put [1] [7] false), .ret 0 (.put [1] [7] false) (.bool true),
        .pool .check, .pool (.create true true), .pool .insert, .close 0, .flush .exit, .joined, .drain,
        .flush (.acquire true), .flush (.write none), .flush .publish, .flush .finish, .closed] s ∧ s.closer = .closed ∧
      (State.openStore ⟨32, 4, 1, 0⟩ s.dir s.dir.toList).get [] = some [] := Run.exists_of_any (by decide +kernel)
  obtain ⟨s', run', returned', absent⟩ :
    ∃ s, Run (Allowed (State.step (.ofGlobal ⟨32, 4, 1, false⟩)) fun _ e => e.InSession)
      (State.openStore (.ofGlobal ⟨32, 4, 1, false⟩) ∅ [])
        [.call 0 (.put [1] [7] false), .ret 0 (.put [1] [7] false) (.bool true),
        .pool .check, .pool (.create true true), .pool .insert, .close 0, .flush .exit, .joined, .drain,
        .flush (.acquire true), .flush (.write none), .flush .publish, .flush .finish, .closed] s ∧ s.closer = .closed ∧
      (State.openStore ⟨32, 4, 1, 0⟩ s.dir s.dir.toList).get [] = none := Run.exists_of_any (by decide +kernel)
  have same := (always _ _ _ _ _ (.session .empty trivial (.refl _) run returned)
    (.session .empty (by decide) (.refl _) run' returned') ⟨32, 4, 1, 0⟩ ⟨32, 4, 1, 0⟩ _ _ (.refl _) (.refl _)).1 []
  rw [shown, absent] at same
  cases same

end LSMIO
