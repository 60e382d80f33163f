import LSMIO.PaddedFiles

namespace LSMIO

/-- The creation of a pool file succeeds. -/
def Event.opened : Event → Bool
  | .pool (.create _ opened) => opened
  | _ => true

/-- The file in the hands of a flush. -/
def Hand.padded (preAllocationSize : Nat) : Hand → Padded
  | .acquired _ id => [.flushed preAllocationSize id []]
  | .written m id _ => [.flushed preAllocationSize id m.data]
  | .idle | .taken _ | .finished => []

@[simp] theorem Hand.padded_ids (preAllocationSize : Nat) (h : Hand) :
    (h.padded preAllocationSize).map (·.id) = h.ids := by
  cases h <;> rfl

/-- The creation of a file that is not there yet leaves the preallocated zeros, if it leaves a file;
it does when the file comes to the pool. -/
theorem FilePool.content_replenished {p p' : FilePool} {dir dir' : Directory} {e : PoolEvent}
    (done : p.replenish dir e = some (p', dir')) (absent : dir[fileName p.nextId]? = none) :
    (∀ content, dir'[fileName p.nextId]? = some content → content = List.replicate p.preAllocationSize 0) ∧
      (p'.ready = p.ready ++ [p.nextId] → dir'[fileName p.nextId]?.isSome) := by
  have unchanged : p'.ready = p.ready → dir' = dir →
      (∀ content, dir'[fileName p.nextId]? = some content → content = List.replicate p.preAllocationSize 0) ∧
        (p'.ready = p.ready ++ [p.nextId] → dir'[fileName p.nextId]?.isSome) := by
    rintro same rfl
    exact ⟨fun content here => by simp [absent] at here, fun grown => by simp [same] at grown⟩
  have zeros : ∀ dir' : Directory, dir' = dir.insert (fileName p.nextId)
        (fallocate (dir[fileName p.nextId]?.getD []) p.preAllocationSize) →
      dir'[fileName p.nextId]? = some (List.replicate p.preAllocationSize 0) := by
    rintro dir' rfl
    rw [OrderedMap.getElem?_insert, if_pos rfl, absent]
    simp [fallocate]
  cases e with
  | check =>
    simp only [replenish] at done
    split at done
    next free =>
      cases done
      exact unchanged (by simp [ready, free.1]) rfl
    next => cases done
  | create preOpened opened =>
    simp only [replenish] at done
    split at done
    next turn =>
      split at done
      next =>
        obtain ⟨after, opening, made⟩ := Option.map_eq_some_iff.mp done
        cases made
        have blank : dir'[fileName p.nextId]? = some (List.replicate p.preAllocationSize 0) := by
          unfold openFile at opening
          split at opening
          next none =>
            cases opening
            rw [OrderedMap.getElem?_insert, if_pos rfl, none]
            rfl
          next =>
            split at opening
            · exact zeros _ (Option.some.inj opening).symm
            · simp [absent] at opening
        exact ⟨fun content here => Option.some.inj (here.symm.trans blank), fun _ => Option.isSome_of_eq_some blank⟩
      next =>
        cases done
        by_cases preAllocated : p.preAllocationSize ≠ 0 ∧ preOpened = true
        · rw [if_pos preAllocated]
          exact ⟨fun content here => Option.some.inj (here.symm.trans (zeros _ rfl)), fun _ =>
            Option.isSome_of_eq_some (zeros _ rfl)⟩
        · exact unchanged (by simp [ready, turn.1]) (if_neg preAllocated)
    next => cases done
  | insert =>
    simp only [replenish] at done
    split at done
    next id made =>
      cases done
      exact unchanged (by simp [ready, made]) rfl
    next => cases done

/-- A file that is not there yet is created with as many zeros as are preallocated. -/
theorem FilePool.content_created {p p' : FilePool} {dir dir' : Directory} {e : PoolEvent}
    (done : p.replenish dir e = some (p', dir')) (grown : p'.ready = p.ready ++ [p.nextId])
    (absent : dir[fileName p.nextId]? = none) :
    dir'[fileName p.nextId]? = some (List.replicate p.preAllocationSize 0) := by
  obtain ⟨blank, present⟩ := content_replenished done absent
  obtain ⟨content, here⟩ := Option.isSome_iff_exists.mp (present grown)
  rw [here, blank content here]

namespace State

/-- The files of a directory in a session: those found at its opening, those
flushed since, the one in the flush's hands, and those of the pool. -/
def padded (preAllocationSize : Nat) (found : Padded) (flushed : Flushed) (s : State) : Padded :=
  found ++ (flushed.reverse.map fun table => .flushed preAllocationSize table.1 table.2) ++
    s.hand.padded preAllocationSize ++
    s.pool.ready.map fun id => .flushed preAllocationSize id []

/-- What holds through a session with a fixed preallocation, besides the
invariant of the store, when the files found are numbered below those created. -/
structure Session (preAllocationSize : Nat) (found : Padded) (first s : State) (flushed : Flushed) : Prop where
  described : (s.padded preAllocationSize found flushed).files.Describes s.dir
  past : ∀ f ∈ found, f.id < first.pool.nextId
  started : ∀ id ∈ s.issued flushed, first.pool.nextId ≤ id
  counter : first.pool.nextId ≤ s.pool.nextId ∧ s.pool.nextId < 2 ^ 64
  preAlloc : s.pool.preAllocationSize = preAllocationSize

theorem padded_ids (preAllocationSize : Nat) (found : Padded) (flushed : Flushed) (s : State) :
    (s.padded preAllocationSize found flushed).map (·.id) = found.map (·.id) ++ s.issued flushed := by
  simp [padded, issued, Flushed.ids, Function.comp_def]

variable {size : Nat} {found : Padded} {first s s' : State} {trace : List Event} {flushed : Flushed} {e : Event}

theorem Session.memory (session : Session size found first s flushed) (done : MemoryStep s e s') :
    Session size found first s' flushed := by
  have handFiles : s'.hand.padded size = s.hand.padded size := by
    rcases done.hand with same | ⟨without, without'⟩
    · rw [same]
    · have none : ∀ h : Hand, h.ids = [] → h.padded size = [] := by
        intro h noIds
        cases h <;> first | rfl | cases noIds
      rw [none _ without, none _ without']
  have ids : s'.hand.ids = s.hand.ids := by rw [← Hand.padded_ids size, handFiles, Hand.padded_ids]
  have issued : s'.issued flushed = s.issued flushed := by rw [State.issued, State.issued, ids, done.pool]
  refine ⟨?_, session.past, ?_, ?_, ?_⟩
  · rw [padded, handFiles, done.pool, done.dir]
    exact session.described
  · rw [issued]
    exact session.started
  · rw [done.pool]
    exact session.counter
  · rw [done.pool]
    exact session.preAlloc

theorem Session.acquired {m : Memtable} {id : Nat} (session : Session size found first s flushed)
    (done : AcquireStep s m id s') : Session size found first s' flushed := by
  obtain ⟨ready, nextId, preAllocationSize⟩ := FilePool.ready_of_acquire done.front
  have issued : s'.issued flushed = s.issued flushed := by
    simp [State.issued, done.hand, done.taken, Hand.ids, ready]
  have files : s'.padded size found flushed = s.padded size found flushed := by
    simp [State.padded, done.hand, done.taken, Hand.padded, ready]
  refine ⟨?_, session.past, ?_, ?_, ?_⟩
  · rw [files, done.dir]
    exact session.described
  · rw [issued]
    exact session.started
  · rw [nextId]
    exact session.counter
  · rw [preAllocationSize]
    exact session.preAlloc

/-- The other files of the session have other ids than the file in the flush's hands. -/
theorem Session.others (session : Session size found first s flushed) (inv : Inv first trace s flushed)
    {m : Memtable} {id : Nat} (acquired : s.hand = .acquired m id) :
    ∀ f ∈ found ++ (flushed.reverse.map fun table => .flushed size table.1 table.2) ++
      s.pool.ready.map fun id => PaddedFile.flushed size id [], f.id ≠ id := by
  have started := session.started id (by simp [issued, acquired, Hand.ids])
  have ascending := inv.ascending
  simp only [issued, acquired, Hand.ids, List.append_assoc] at ascending
  obtain ⟨-, behind, across⟩ := List.pairwise_append.mp ascending
  intro f member
  simp only [List.append_assoc, List.mem_append] at member
  rcases member with inFound | inFlushed | inReady
  · exact ((session.past f inFound).trans_le started).ne
  · obtain ⟨source, inSource, rfl⟩ := List.mem_map.mp inFlushed
    exact (across source.1 (Flushed.mem_ids (List.mem_reverse.mp inSource)) id (by simp)).ne
  · obtain ⟨other, inSource, rfl⟩ := List.mem_map.mp inReady
    exact ((List.pairwise_cons.mp behind).1 other inSource).ne'

theorem Session.wrote {m : Memtable} {id : Nat} (session : Session size found first s flushed)
    (inv : Inv first trace s flushed) (done : WriteStep s m id s') : Session size found first s' flushed := by
  have described := session.described
  rw [padded, done.acquired, Padded.files_append, Padded.files_append] at described
  have blank : s.dir[fileName id]? = some (List.replicate size 0) := by
    rw [← PaddedFile.content_unused size id]
    exact described.getElem? (by simp [Hand.padded, Padded.files])
  have issued : s'.issued flushed = s.issued flushed := by
    simp [State.issued, done.hand, done.acquired, Hand.ids, done.pool]
  refine ⟨?_, session.past, ?_, ?_, ?_⟩
  · rw [padded, done.hand, done.pool, Padded.files_append, Padded.files_append]
    refine described.update (by simp [Hand.padded, Padded.files]) (fun file member => ?_) (fun name different => ?_) ?_
    · rw [← Padded.files_append] at member
      obtain ⟨f, inFiles, rfl⟩ := List.mem_map.mp member
      exact session.others inv done.acquired f inFiles
    · rw [PaddedFile.flushed_id] at different
      rw [done.dir, OrderedMap.getElem?_insert, if_neg different.symm]
    · rw [PaddedFile.flushed_id, done.dir, OrderedMap.getElem?_insert, if_pos rfl, blank, PaddedFile.content_flushed]
      rfl
  · rw [issued]
    exact session.started
  · rw [done.pool]
    exact session.counter
  · rw [done.pool]
    exact session.preAlloc

theorem Session.published {m : Memtable} {id : Nat} {index : L0Index}
    (session : Session size found first s flushed) (done : PublishStep s m id index s') :
    Session size found first s' ((id, m.data) :: flushed) := by
  have issued : s'.issued ((id, m.data) :: flushed) = s.issued flushed := by
    simp [State.issued, done.hand, done.written, Hand.ids, done.pool]
  have files : s'.padded size found ((id, m.data) :: flushed) = s.padded size found flushed := by
    simp [State.padded, done.hand, done.written, Hand.padded, done.pool]
  refine ⟨?_, session.past, ?_, ?_, ?_⟩
  · rw [files, done.dir]
    exact session.described
  · rw [issued]
    exact session.started
  · rw [done.pool]
    exact session.counter
  · rw [done.pool]
    exact session.preAlloc

theorem Session.pooled {event : PoolEvent} (session : Session size found first s flushed)
    (inv : Inv first trace s flushed) (same : e = .pool event) (opened : e.opened = true) (done : PoolStep s event s') :
    Session size found first s' flushed := by
  obtain ⟨effect, preAllocationSize⟩ := FilePool.replenish_cases done.replenished
  have preAlloc : s'.pool.preAllocationSize = size := preAllocationSize.trans session.preAlloc
  cases effect with
  | idle ready nextId sameDir =>
    have issued : s'.issued flushed = s.issued flushed := by rw [State.issued, State.issued, done.hand, ready]
    refine ⟨?_, session.past, ?_, ?_, preAlloc⟩
    · rw [padded, done.hand, ready, sameDir]
      exact session.described
    · rw [issued]
      exact session.started
    · rw [nextId]
      exact session.counter
  | created ready nextId bound others _ =>
    have issued : s'.issued flushed = s.issued flushed ++ [s.pool.nextId] := by
      simp [State.issued, done.hand, ready]
    have files : (s'.padded size found flushed).files = (s.padded size found flushed).files ++
        [(s.pool.nextId, (PaddedFile.flushed size s.pool.nextId []).content)] ++ [] := by
      simp [State.padded, Padded.files, done.hand, ready]
    have described : Files.Describes ((s.padded size found flushed).files ++ [] ++ []) s.dir := by
      simpa using session.described
    have started := session.counter.1
    have unused : ∀ file ∈ (s.padded size found flushed).files ++ [], file.1 ≠ s.pool.nextId := by
      intro file member
      rw [List.append_nil] at member
      obtain ⟨f, inFiles, rfl⟩ := List.mem_map.mp member
      have inIds : f.id ∈ (s.padded size found flushed).map (·.id) := List.mem_map_of_mem inFiles
      rw [padded_ids, List.mem_append] at inIds
      rcases inIds with inFound | inIssued
      · obtain ⟨source, inSource, isSource⟩ := List.mem_map.mp inFound
        have past := session.past source inSource
        simp only
        omega
      · exact (inv.below _ inIssued).ne
    have absent : s.dir[fileName s.pool.nextId]? = none := by
      rw [Option.eq_none_iff_forall_ne_some]
      intro content here
      have member := Files.mem_entries_fileName.mp ((session.described _ _).mp here)
      exact unused _ (by rwa [List.append_nil]) rfl
    have blank := FilePool.content_created done.replenished ready absent
    rw [session.preAlloc] at blank
    refine ⟨?_, session.past, ?_, ⟨by omega, by omega⟩, preAlloc⟩
    · rw [files]
      exact described.update (by simp) unused others (by rw [blank, PaddedFile.content_unused])
    · rw [issued]
      intro id member
      rcases List.mem_append.mp member with old | new
      · exact session.started id old
      · exact List.mem_singleton.mp new ▸ started
  | failed preOpened closed =>
    rw [same, closed] at opened
    cases opened

theorem Session.kept (session : Session size found first s flushed) (inv : Inv first trace s flushed)
    (opened : e.opened = true) (effect : Effect s e s') :
    ∃ flushed', Inv first (trace ++ [e]) s' flushed' ∧ Session size found first s' flushed' := by
  cases effect with
  | memory done => exact ⟨flushed, inv.memory done, session.memory done⟩
  | acquired silent done => exact ⟨flushed, inv.acquired silent done, session.acquired done⟩
  | written silent done => exact ⟨flushed, inv.wrote silent done, session.wrote inv done⟩
  | published silent done => exact ⟨_, inv.published silent done, session.published done⟩
  | pooled same done => exact ⟨flushed, inv.pooled same done, session.pooled inv same opened done⟩

variable {cfg : Config} {dir : Directory} {listed : List (FileName × Bytes)} {ok : State → Event → Prop}

/-- The store opened on such a directory starts a session. -/
theorem Session.openStore (holds : found.Holds dir) (listing : listed.Perm dir.toList) :
    Session cfg.preAllocBytes found (openStore cfg dir listed) (openStore cfg dir listed) [] := by
  obtain ⟨past, small⟩ := holds.numbered.recoverState_startId (holds.described.listing holds.numbered listing) (by
    intro file member
    obtain ⟨f, inFound, rfl⟩ := List.mem_map.mp member
    exact holds.room f inFound)
  refine ⟨?_, fun f member => ?_, ?_, ⟨le_rfl, small⟩, rfl⟩
  · simpa [padded, State.openStore, Hand.padded] using holds.described
  · exact past (f.id, f.content) (List.mem_map_of_mem member)
  · simp [issued, State.openStore, Hand.ids]

theorem Session.of_run (fine : ∀ s e, ok s e → e.intact = true ∧ e.opened = true) (holds : found.Holds dir)
    (listing : listed.Perm dir.toList) (run : Run (Allowed (step cfg) ok) (State.openStore cfg dir listed) trace s) :
    ∃ flushed, Inv (State.openStore cfg dir listed) trace s flushed ∧
      Session cfg.preAllocBytes found (State.openStore cfg dir listed) s flushed := by
  refine run.invariant (P := fun trace s => ∃ flushed, Inv (State.openStore cfg dir listed) trace s flushed ∧
    Session cfg.preAllocBytes found (State.openStore cfg dir listed) s flushed)
    ⟨[], .initial (openStore_pending ..) rfl rfl, .openStore holds listing⟩ ?_
  rintro trace s e s' - ⟨flushed, inv, session⟩ ⟨allowed, taken⟩
  obtain ⟨intact, opened⟩ := fine s e allowed
  exact session.kept inv opened (step_effect taken intact)

/-- With no flush in flight, `get` shows what recovery found in the files and the mutations of the session. -/
theorem Session.get_eq (session : Session size found first s flushed) (inv : Inv first trace s flushed)
    (holds : found.Holds dir) (short : ∀ entry ∈ mutations trace, Short entry)
    (head : first.head = (found.map fun f => recoverIndex (fileName f.id) f.content).reverse)
    (idle : s.hand = .idle) (key : Key) : s.get key = contents (found.recovered ++ mutations trace) key := by
  have stored : ∀ f ∈ found, s.dir[fileName f.id]? = some f.content := by
    intro f member
    refine session.described.getElem? ?_
    simp only [padded, Padded.files_append, List.append_assoc, List.mem_append]
    exact .inl (List.mem_map_of_mem member)
  have base := Padded.get_recovered stored holds.short [] key
  rw [List.append_nil] at base
  have pending : s.pending = s.memData := by rw [State.pending, idle]; rfl
  rw [get, contents, memtableGet_eq, inv.sstableGet_eq short, head, base, inv.log, pending, lastValue_append,
    lastValue_append, Option.or_assoc]
  simp [SSTableManager.get]

/-- When the memtables are all flushed, the files are numbered in the order of their creation. -/
theorem Session.holds (session : Session size found first s flushed) (inv : Inv first trace s flushed)
    (holds : found.Holds dir) (short : ∀ entry ∈ mutations trace, Short entry) (idle : s.hand = .idle)
    (drained : s.memData = []) :
    (s.padded size found flushed).Holds s.dir ∧ (s.padded size found flushed).log = found.log ++ mutations trace := by
  have ids := padded_ids size found flushed s
  have bound : ∀ id ∈ found.map (·.id) ++ s.issued flushed, id + 1 < 2 ^ 64 := by
    intro id member
    have counter := session.counter
    rcases List.mem_append.mp member with inFound | inIssued
    · obtain ⟨f, inSource, rfl⟩ := List.mem_map.mp inFound
      have past := session.past f inSource
      omega
    · have below := inv.below id inIssued
      omega
  have ascending : (found.map (·.id) ++ s.issued flushed).Pairwise (· < ·) := by
    refine List.pairwise_append.mpr ⟨List.pairwise_map.mpr holds.ascending, inv.ascending, ?_⟩
    intro id inFound other inIssued
    obtain ⟨f, inSource, rfl⟩ := List.mem_map.mp inFound
    exact (session.past f inSource).trans_le (session.started other inIssued)
  have log : (s.padded size found flushed).log = found.log ++ mutations trace := by
    have flushedLog : Padded.log (flushed.reverse.map fun table => PaddedFile.flushed size table.1 table.2) =
      flushed.log := by
      simp [Padded.log, Flushed.log, Flushed.tables, Tables.log, List.map_reverse, Function.comp_def]
    have unused : Padded.log (s.pool.ready.map fun id => PaddedFile.flushed size id []) = [] := by
      simp [Padded.log, List.flatten_eq_nil_iff]
    rw [padded, Padded.log_append, Padded.log_append, Padded.log_append, flushedLog, unused, inv.log, pending, idle,
      drained]
    simp [Hand.data, Hand.padded, Padded.log]
  refine ⟨⟨session.described, ?_, ?_, ?_⟩, log⟩
  · rw [← ids] at ascending
    exact List.pairwise_map.mp ascending
  · intro f member
    exact bound f.id (ids ▸ List.mem_map_of_mem member)
  · rw [log]
    intro entry member
    rcases List.mem_append.mp member with old | new
    · exact holds.short entry old
    · exact short entry new

end State

end LSMIO
