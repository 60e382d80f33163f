import LSMIO.FlushInvisible

namespace LSMIO

section Room

variable {dir : Directory} {listed : List (FileName × Bytes)} (listing : listed.Perm dir.toList)
  (room : ∀ name content id, dir[name]? = some content → parseId name = some id → id + 1 < 2 ^ 64)

include listing room

theorem maxId_lt_of_room : maxId (foundFiles listed) < 2 ^ 64 - 1 := by
  refine Files.maxId_lt (by decide) fun file member => ?_
  obtain ⟨inListed, isId⟩ := mem_foundFiles.mp member
  have bound := room _ _ _ ((mem_listing listing).mp inListed) isId
  omega

theorem recoverState_startId : (recoverState listed).2 = maxId (foundFiles listed) + 1 := by
  have bound := maxId_lt_of_room listing room
  simp only [recoverState]
  omega

theorem above_of_room {file : Nat × FileName × Bytes} (member : file ∈ foundFiles listed) :
    file.1 < (recoverState listed).2 := by
  rw [recoverState_startId listing room]
  exact Nat.lt_succ_of_le (Files.le_maxId member)

end Room

/-- Recovery puts the files with higher ids in front of a file. -/
theorem recoverState_newer {dir : Directory} {listed : List (FileName × Bytes)} (listing : listed.Perm dir.toList)
    {id : Nat} {name : FileName} {content : Bytes} (here : dir[name]? = some content)
    (parsed : parseId name = some id)
    (only : ∀ other bytes, dir[other]? = some bytes → parseId other = some id → other = name) :
    ∃ (newer : List (FileName × Bytes)) (older : List L0Index),
      (recoverState listed).1 = (newer.map fun file => recoverIndex file.1 file.2) ++
        recoverIndex name content :: older ∧
        ∀ other bytes, (other, bytes) ∈ newer ↔ dir[other]? = some bytes ∧ ∃ n, parseId other = some n ∧ id < n := by
  have distinct := nodup_foundFiles (nodup_listing listing)
  have sorted : (foundFiles listed).Pairwise FoundBefore := List.pairwise_insertionSort _ _
  obtain ⟨front, back, split⟩ := List.append_of_mem (mem_foundFiles.mpr ⟨(mem_listing listing).mpr here, parsed⟩)
  rw [split] at distinct sorted
  obtain ⟨-, behind, before⟩ := List.pairwise_append.mp sorted
  have above := (List.pairwise_cons.mp behind).1
  refine ⟨(back.map (·.2)).reverse, (front.map fun file => recoverIndex file.2.1 file.2.2).reverse, ?_,
    fun other bytes => ?_⟩
  · rw [recoverState_fst, split]
    simp [List.map_reverse, Function.comp_def]
  · rw [List.mem_reverse, List.mem_map]
    constructor
    · rintro ⟨⟨n, file⟩, member, rfl⟩
      obtain ⟨inDir, isId⟩ := mem_foundFiles.mp (split ▸ List.mem_append_right _ (List.mem_cons_of_mem _ member))
      refine ⟨(mem_listing listing).mp inDir, n, isId, ?_⟩
      rcases above _ member with less | ⟨same, -⟩
      · exact less
      · -- A second file with the same id would be this very file.
        have sameId : id = n := same
        subst sameId
        have stored := (mem_listing listing).mp inDir
        obtain rfl := only other bytes stored isId
        rw [here] at stored
        cases stored
        exact absurd member (List.nodup_cons.mp (List.nodup_append.mp distinct).2.1).1
    · rintro ⟨inDir, n, isId, more⟩
      have found := mem_foundFiles.mpr ⟨(mem_listing listing).mpr inDir, isId⟩
      rw [split] at found
      rcases List.mem_append.mp found with inFront | later
      · rcases before _ inFront _ (List.mem_cons_self ..) with less | ⟨same, -⟩
        · exact absurd less more.asymm
        · exact absurd same more.ne'
      · rcases List.mem_cons.mp later with same | inBack
        · cases same
          exact absurd more (lt_irrefl _)
        · exact ⟨_, inBack, rfl⟩

/-- The flush has written its file and not yet published its table. -/
def Hand.isWritten : Hand → Bool
  | .written _ _ _ => true
  | _ => false

namespace State

/-- The ids of the files that wait for the entries of a memtable: the one a
flush has taken from the pool, and those ready in the pool. -/
def awaiting (s : State) : List Nat := (match s.hand with
  | .acquired _ id => [id]
  | _ => []) ++ s.pool.ready

/-- The counter of the pool and the size it preallocates are the same. -/
structure SameCounter (s s' : State) : Prop where
  nextId : s'.pool.nextId = s.pool.nextId
  preAllocationSize : s'.pool.preAllocationSize = s.pool.preAllocationSize

/-- What a step does to the files and the tables, whatever fails in it. -/
inductive FileStep (s : State) (e : Event) (s' : State) : Prop
  | kept (silent : e ≠ .flush .publish) (awaiting : s'.awaiting.Sublist s.awaiting) (dir : s'.dir = s.dir)
      (counter : SameCounter s s') (head : s'.head = s.head) (hand : s'.hand = s.hand ∨ s'.hand.isWritten = false)
  | wrote {fault : Option (Nat × Nat)} {m : Memtable} {id : Nat} (same : e = .flush (.write fault))
      (acquired : s.hand = .acquired m id) (awaiting : s.awaiting = id :: s'.awaiting)
      (others : ∀ name, name ≠ fileName id → s'.dir[name]? = s.dir[name]?) (counter : SameCounter s s')
  | published {m : Memtable} {id : Nat} {index : L0Index} (same : e = .flush .publish)
    (written : s.hand = .written m id index)
      (awaiting : s'.awaiting = s.awaiting) (dir : s'.dir = s.dir) (counter : SameCounter s s')
      (head : s'.head = index :: s.head) (hand : s'.hand = .finished)
  | pooled {event : PoolEvent} (same : e = .pool event) (done : PoolStep s event s')

variable {cfg : Config} {s s' : State}

theorem fileStep_flush {event : FlushEvent} (done : s.stepFlush event = some s') : FileStep s (.flush event) s' := by
  cases stepFlush_cases done with
  | pop idle => exact .kept (by simp) (by simp [awaiting, idle]) rfl ⟨rfl, rfl⟩ rfl (.inr rfl)
  | skip taken => exact .kept (by simp) (by simp [awaiting, taken]) rfl ⟨rfl, rfl⟩ rfl (.inr rfl)
  | acquire good taken front =>
    obtain ⟨ready, nextId, preAllocationSize⟩ := FilePool.ready_of_acquire front
    refine .kept (by simp) ?_ rfl ⟨nextId, preAllocationSize⟩ rfl (.inr ?_)
    · cases good <;> simp [awaiting, taken, ready]
    · cases good <;> rfl
  | write fault acquired =>
    refine .wrote rfl acquired (by simp [awaiting, acquired]) (fun name different => ?_) ⟨rfl, rfl⟩
    rw [OrderedMap.getElem?_insert, if_neg different.symm]
  | publish written => exact .published rfl written (by simp [awaiting, written]) rfl ⟨rfl, rfl⟩ rfl rfl
  | threw =>
    refine .kept (by simp) ?_ rfl ⟨rfl, rfl⟩ rfl (.inr rfl)
    rw [awaiting, awaiting]
    exact List.sublist_append_right ..
  | finish finished => exact .kept (by simp) (by simp [awaiting, finished]) rfl ⟨rfl, rfl⟩ rfl (.inr rfl)
  | exit => exact .kept (by simp) (.refl _) rfl ⟨rfl, rfl⟩ rfl (.inl rfl)

theorem step_files {e : Event} (taken : step cfg s e = some s') : FileStep s e s' := by
  rcases step_kinds taken with client | ⟨event, rfl, done⟩ | ⟨event, rfl, done⟩ | ⟨rfl, m, rest, idle, -, rfl⟩
  · by_cases publishes : e = .flush .publish
    · subst publishes
      exact fileStep_flush taken
    · refine .kept publishes ?_ client.dir ⟨by rw [client.pool], by rw [client.pool]⟩ client.head (.inl client.hand)
      rw [awaiting, awaiting, client.hand, client.pool]
  · exact fileStep_flush done
  · exact .pooled rfl done
  · exact .kept (by simp) (by simp [awaiting, idle]) rfl ⟨rfl, rfl⟩ rfl (.inr rfl)

/-- The pool's worker touches no file but the one with the next id, which then may wait for entries. -/
theorem PoolStep.files {event : PoolEvent} (done : PoolStep s event s') :
    (s'.awaiting = s.awaiting ∧ s'.dir = s.dir ∧ s'.pool.nextId = s.pool.nextId) ∨
      ((s'.awaiting = s.awaiting ∨ s'.awaiting = s.awaiting ++ [s.pool.nextId] ∧
        s'.pool.ready = s.pool.ready ++ [s.pool.nextId]) ∧
        s'.pool.nextId = s.pool.nextId + 1 ∧ ∀ name, name ≠ fileName s.pool.nextId → s'.dir[name]? = s.dir[name]?) := by
  rcases (FilePool.replenish_cases done.replenished).1 with
    ⟨ready, nextId, same⟩ | ⟨ready, nextId, -, others, -⟩ | ⟨-, -, ready, nextId, -, others⟩
  · exact .inl ⟨by rw [awaiting, awaiting, done.hand, ready], same, nextId⟩
  · exact .inr ⟨.inr ⟨by rw [awaiting, awaiting, done.hand, ready, List.append_assoc], ready⟩, nextId, others⟩
  · exact .inr ⟨.inl (by rw [awaiting, awaiting, done.hand, ready]), nextId, others⟩

/-- What holds of the files in every run, whatever fails: the ids in the
directory are below the counter, and from the first file that waits for entries
on there are only preallocated zeros. -/
structure Blanks (size : Nat) (s : State) : Prop where
  fresh : Fresh s
  parsed : ∀ name content id, s.dir[name]? = some content → parseId name = some id → id < s.pool.nextId
  waiting : ∀ id ∈ s.awaiting, s.dir[fileName id]? = some (List.replicate size 0)
  blank : ∀ name content id, s.dir[name]? = some content → parseId name = some id → ∀ first ∈ s.awaiting, first ≤ id →
    name = fileName id ∧ content = List.replicate size 0
  preAlloc : s.pool.preAllocationSize = size

variable {size : Nat}

theorem Blanks.kept (blanks : Blanks size s) (awaiting : s'.awaiting.Sublist s.awaiting) (dir : s'.dir = s.dir)
    (counter : SameCounter s s') (fresh : Fresh s') : Blanks size s' := by
  refine ⟨fresh, ?_, fun id member => ?_, ?_, counter.preAllocationSize.trans blanks.preAlloc⟩
  · rw [dir, counter.nextId]
    exact blanks.parsed
  · rw [dir]
    exact blanks.waiting id (awaiting.subset member)
  · rw [dir]
    exact fun name content id here isId first member =>
      blanks.blank name content id here isId first (awaiting.subset member)

/-- The next file of the pool is not there before its creation. -/
theorem Blanks.absent (blanks : Blanks size s) : s.dir[fileName s.pool.nextId]? = none := by
  rw [Option.eq_none_iff_forall_ne_some]
  intro content here
  exact lt_irrefl _ (blanks.parsed _ _ _ here (parseId_fileName blanks.fresh.counter))

theorem awaiting_of_acquired {m : Memtable} {id : Nat} (acquired : s.hand = .acquired m id) :
    s.unpublished = s.awaiting := by
  rw [unpublished, awaiting, acquired]
  rfl

/-- Every waiting id is handed out and not published. -/
theorem awaiting_sublist (s : State) : s.awaiting.Sublist s.unpublished := by
  rw [awaiting, unpublished]
  cases s.hand <;> simp [Hand.ids]

theorem Blanks.step {e : Event} (blanks : Blanks size s) (taken : step cfg s e = some s') : Blanks size s' := by
  have fresh := blanks.fresh.step taken
  cases step_files taken with
  | kept _ awaiting dir counter => exact blanks.kept awaiting dir counter fresh
  | published _ _ awaiting dir counter => exact blanks.kept (awaiting ▸ .refl _) dir counter fresh
  | @wrote fault m id _ acquired awaiting others counter =>
    have ascending := blanks.fresh.ascending
    have below := blanks.fresh.below id (by simp [unpublished, acquired, Hand.ids])
    rw [awaiting_of_acquired acquired, awaiting, List.pairwise_cons] at ascending
    have isId := parseId_fileName (below.trans blanks.fresh.counter)
    refine ⟨fresh, fun name content n here parsed => ?_, fun n member => ?_,
      fun name content n here parsed first member le => ?_,
      counter.preAllocationSize.trans blanks.preAlloc⟩
    · rw [counter.nextId]
      by_cases same : name = fileName id
      · rw [same, isId] at parsed
        exact Option.some.inj parsed ▸ below
      · exact blanks.parsed name content n ((others name same).symm.trans here) parsed
    · have different : fileName n ≠ fileName id := fun same => (ascending.1 n member).ne' (fileName_injective same)
      rw [others _ different]
      exact blanks.waiting n (awaiting ▸ List.mem_cons_of_mem _ member)
    · have different : name ≠ fileName id := by
        rintro rfl
        rw [isId] at parsed
        exact absurd (ascending.1 first member) (Option.some.inj parsed ▸ le).not_gt
      exact blanks.blank name content n ((others name different).symm.trans here) parsed first
        (awaiting ▸ List.mem_cons_of_mem _ member) le
  | @pooled event _ done =>
    have absent := blanks.absent
    obtain ⟨created, present⟩ := FilePool.content_replenished done.replenished absent
    have preAlloc := (FilePool.replenish_cases done.replenished).2.trans blanks.preAlloc
    rcases done.files with ⟨awaiting, dir, nextId⟩ | ⟨grown, nextId, others⟩
    · exact blanks.kept (awaiting ▸ .refl _) dir ⟨nextId, preAlloc.trans blanks.preAlloc.symm⟩ fresh
    · have isId := parseId_fileName blanks.fresh.counter
      have only : ∀ id ∈ s'.awaiting, id ∈ s.awaiting ∨ id = s.pool.nextId := by
        intro id member
        rcases grown with same | ⟨more, -⟩
        · exact .inl (same ▸ member)
        · simpa [more] using member
      refine ⟨fresh, fun name content n here parsed => ?_, fun n member => ?_,
        fun name content n here parsed first member le => ?_,
        preAlloc⟩
      · rw [nextId]
        by_cases same : name = fileName s.pool.nextId
        · rw [same, isId] at parsed
          exact Option.some.inj parsed ▸ Nat.lt_succ_self _
        · exact (blanks.parsed name content n ((others name same).symm.trans here) parsed).trans (Nat.lt_succ_self _)
      · by_cases old : n ∈ s.awaiting
        · have below := blanks.fresh.below n ((awaiting_sublist s).subset old)
          rw [others _ fun same => below.ne (fileName_injective same)]
          exact blanks.waiting n old
        · obtain rfl := (only n member).resolve_left old
          obtain ⟨-, ready⟩ := grown.resolve_left fun same => old (same ▸ member)
          obtain ⟨content, here⟩ := Option.isSome_iff_exists.mp (present ready)
          rw [here, created content here, blanks.preAlloc]
      · by_cases same : name = fileName s.pool.nextId
        · subst same
          rw [isId] at parsed
          exact ⟨by rw [Option.some.inj parsed], blanks.preAlloc ▸ created content here⟩
        · have here' := (others name same).symm.trans here
          rcases only first member with old | rfl
          · exact blanks.blank name content n here' parsed first old le
          · exact absurd (blanks.parsed name content n here' parsed) le.not_gt

theorem Blanks.openStore {dir : Directory} {listed : List (FileName × Bytes)} (listing : listed.Perm dir.toList)
    (room : ∀ name content id, dir[name]? = some content → parseId name = some id → id + 1 < 2 ^ 64) (cfg : Config) :
    Blanks cfg.preAllocBytes (openStore cfg dir listed) := by
  have small := maxId_lt_of_room listing room
  refine ⟨.openStore (by omega) cfg dir, fun name content id here isId => ?_, fun id member => (by cases member),
    fun name content id here isId first member => (by cases member), rfl⟩
  exact above_of_room listing room (mem_foundFiles.mpr ⟨(mem_listing listing).mpr here, isId⟩)

end State

/-- The directories the store leaves: after any number of runs, each from a
recovery of what was there, with any I/O failures, and stopped at any step. -/
inductive LeftBehind : Directory → Prop
  | empty : LeftBehind ∅
  | run {cfg : Config} {dir : Directory} {listed : List (FileName × Bytes)} {trace : List Event} {s : State} :
      LeftBehind dir → listed.Perm dir.toList → Run (Allowed (State.step cfg) fun _ _ => True)
        (State.openStore cfg dir listed) trace s →
      LeftBehind s.dir

namespace State

variable {cfg : Config} {dir : Directory} {listed : List (FileName × Bytes)} {s : State} {trace : List Event}
  {ok : State → Event → Prop} {size : Nat}

theorem Blanks.of_run (listing : listed.Perm dir.toList)
    (room : ∀ name content id, dir[name]? = some content → parseId name = some id → id + 1 < 2 ^ 64)
    (run : Run (Allowed (State.step cfg) ok) (State.openStore cfg dir listed) trace s) : Blanks cfg.preAllocBytes s :=
  run.invariant (P := fun _ s => Blanks cfg.preAllocBytes s) (.openStore listing room cfg)
    fun _ _ _ _ _ blanks taken => blanks.step taken.2

end State

/-- The ids in a directory the store leaves have room for one more. -/
theorem LeftBehind.room {dir : Directory} (left : LeftBehind dir) :
    ∀ name content id, dir[name]? = some content → parseId name = some id → id + 1 < 2 ^ 64 := by
  induction left with
  | empty =>
    intro name content id here
    simp at here
  | run _ listing run ih =>
    intro name content id here isId
    have blanks := State.Blanks.of_run listing ih run
    have below := blanks.parsed name content id here isId
    have counter := blanks.fresh.counter
    omega

namespace State

/-- The entries of a memtable have been written to a file, and none to a later
file: behind it there are only preallocated zeros. -/
structure Newest (size id : Nat) (data : List (Key × Value)) (s : State) : Prop where
  blanks : Blanks size s
  file : s.dir[fileName id]? = some (PaddedFile.flushed size id data).content
  below : id < s.pool.nextId
  behind : ∀ name content n, s.dir[name]? = some content → parseId name = some n → id ≤ n →
    name = fileName n ∧ (id < n → content = List.replicate size 0)
  table : ∀ m other index, s.hand = .written m other index → index = tableOf (fileName id) data

variable {cfg : Config} {s s' : State} {size id : Nat} {data : List (Key × Value)} {e : Event} {dir : Directory}
  {listed : List (FileName × Bytes)} {trace : List Event}

theorem Newest.wrote {m : Memtable} (blanks : Blanks size s) (acquired : s.hand = .acquired m id)
    (taken : step cfg s (.flush (.write none)) = some s') : Newest size id m.data s' := by
  obtain ⟨m', id', done⟩ := writeStep_step taken
  obtain ⟨rfl, rfl⟩ := Hand.acquired.inj (acquired.symm.trans done.acquired)
  have waits : id ∈ s.awaiting := by simp [awaiting, acquired]
  have below := blanks.fresh.below id (by simp [unpublished, acquired, Hand.ids])
  refine ⟨blanks.step taken, ?_, by rwa [done.pool], fun name content n here isId le => ?_,
    fun m' other index now => ?_⟩
  · rw [done.dir, OrderedMap.getElem?_insert, if_pos rfl, blanks.waiting id waits, PaddedFile.content_flushed]
    rfl
  · by_cases same : name = fileName id
    · subst same
      rw [parseId_fileName (below.trans blanks.fresh.counter)] at isId
      obtain rfl := Option.some.inj isId
      exact ⟨rfl, fun less => absurd less (lt_irrefl _)⟩
    · rw [done.dir, OrderedMap.getElem?_insert, if_neg (Ne.symm same)] at here
      obtain ⟨named, blank⟩ := blanks.blank name content n here isId id waits le
      exact ⟨named, fun _ => blank⟩
  · rw [done.hand] at now
    cases now
    rfl

/-- Until the next write the file stays the newest one with entries. -/
theorem Newest.step (newest : Newest size id data s) (taken : step cfg s e = some s')
    (noWrite : ∀ fault, e ≠ .flush (.write fault)) : Newest size id data s' := by
  have blanks := newest.blanks.step taken
  cases step_files taken with
  | kept _ _ sameDir counter _ hand =>
    refine ⟨blanks, sameDir ▸ newest.file, counter.nextId ▸ newest.below, sameDir ▸ newest.behind,
      fun m other index now => ?_⟩
    rcases hand with same | without
    · exact newest.table m other index (same ▸ now)
    · rw [now] at without
      cases without
  | wrote same => exact absurd same (noWrite _)
  | published _ _ _ sameDir counter _ hand =>
    refine ⟨blanks, sameDir ▸ newest.file, counter.nextId ▸ newest.below, sameDir ▸ newest.behind,
      fun m other index now => ?_⟩
    rw [hand] at now
    cases now
  | pooled _ done =>
    have table : ∀ m other index, s'.hand = .written m other index → index = tableOf (fileName id) data :=
      fun m other index now =>
      newest.table m other index (done.hand ▸ now)
    rcases done.files with ⟨-, sameDir, nextId⟩ | ⟨-, nextId, others⟩
    · exact ⟨blanks, sameDir ▸ newest.file, nextId ▸ newest.below, sameDir ▸ newest.behind, table⟩
    · have below := newest.below
      have different : fileName id ≠ fileName s.pool.nextId := fun same => below.ne (fileName_injective same)
      refine ⟨blanks, (others _ different).trans newest.file, by omega, fun name content n here isId le => ?_, table⟩
      by_cases same : name = fileName s.pool.nextId
      · subst same
        obtain ⟨created, -⟩ := FilePool.content_replenished done.replenished newest.blanks.absent
        rw [parseId_fileName newest.blanks.fresh.counter] at isId
        exact ⟨by rw [Option.some.inj isId], fun _ => newest.blanks.preAlloc ▸ created content here⟩
      · exact newest.behind name content n ((others name same).symm.trans here) isId le

/-- The table stands at the head of the list from its publication on. -/
theorem Newest.of_run (newest : Newest size id data s)
    (run : Run (Allowed (State.step cfg) fun _ e => ∀ fault, e ≠ .flush (.write fault)) s trace s') :
    Newest size id data s' ∧ (.flush .publish ∈ trace → ∃ older, s'.head = tableOf (fileName id) data :: older) := by
  refine run.invariant (P := fun trace s => Newest size id data s ∧
    (.flush .publish ∈ trace → ∃ older, s.head = tableOf (fileName id) data :: older)) ⟨newest, by simp⟩ ?_
  rintro trace s e s' - ⟨newest, atHead⟩ ⟨noWrite, taken⟩
  refine ⟨newest.step taken noWrite, fun member => ?_⟩
  have before : e ≠ .flush .publish → .flush .publish ∈ trace := fun other =>
    (List.mem_append.mp member).resolve_right fun last => other (List.mem_singleton.mp last).symm
  cases step_files taken with
  | kept silent _ _ _ head => exact head ▸ atHead (before silent)
  | wrote same => exact absurd same (noWrite _)
  | published _ written _ _ _ head => exact ⟨_, by rw [head, newest.table _ _ _ written]⟩
  | pooled same done => exact done.head ▸ atHead (before (by simp [same]))

/-- The directory has a file numbered above the id. -/
def HasBehind (s : State) (id : Nat) : Prop :=
  ∃ name content n, s.dir[name]? = some content ∧ parseId name = some n ∧ id < n

/-- What recovery has in front of the older tables: those of the files of zeros, then that of the entries. -/
theorem Newest.recovered (newest : Newest size id data s) (listing : listed.Perm s.dir.toList) :
    ∃ (newer : List FileName) (older : List L0Index),
      (recoverState listed).1 = (newer.map fun name => recoverIndex name (List.replicate size 0)) ++
        recoverIndex (fileName id) (PaddedFile.flushed size id data).content :: older ∧
      (∀ name ∈ newer, s.dir[name]? = some (List.replicate size 0)) ∧ (newer = [] ↔ ¬ s.HasBehind id) := by
  have isId := parseId_fileName (newest.below.trans newest.blanks.fresh.counter)
  obtain ⟨newer, older, head, members⟩ := recoverState_newer listing newest.file isId fun other bytes here isId' =>
    (newest.behind other bytes id here isId' le_rfl).1
  have zeros : ∀ file ∈ newer, file.2 = List.replicate size 0 := by
    rintro ⟨name, content⟩ member
    obtain ⟨here, n, parsed, more⟩ := (members name content).mp member
    exact (newest.behind name content n here parsed more.le).2 more
  refine ⟨newer.map (·.1), older, ?_, fun name member => ?_, ?_⟩
  · rw [head, List.map_map]
    refine congrArg (· ++ _) (List.map_congr_left fun file member => ?_)
    rw [Function.comp_apply, zeros file member]
  · obtain ⟨⟨_, content⟩, inNewer, rfl⟩ := List.mem_map.mp member
    rw [← zeros _ inNewer]
    exact ((members _ _).mp inNewer).1
  · rw [List.map_eq_nil_iff, List.eq_nil_iff_forall_not_mem]
    constructor
    · rintro none ⟨name, content, n, here, parsed, more⟩
      exact none (name, content) ((members name content).mpr ⟨here, n, parsed, more⟩)
    · rintro noFile ⟨name, content⟩ member
      obtain ⟨here, n, parsed, more⟩ := (members name content).mp member
      exact noFile ⟨name, content, n, here, parsed, more⟩

/-- Each table of a file of zeros answers for the empty key alone, when a record has room in the zeros. -/
theorem get_zeros {newer : List FileName} (stored : ∀ name ∈ newer, dir[name]? = some (List.replicate size 0))
    (rest : List L0Index) (key : Key) : SSTableManager.get (readValueAt dir)
      ((newer.map fun name => recoverIndex name (List.replicate size 0)) ++ rest) key =
      if newer ≠ [] ∧ 8 ≤ size ∧ key = [] then some [] else SSTableManager.get (readValueAt dir) rest key := by
  induction newer with
  | nil => simp
  | cons name newer ih =>
    have file := stored name (List.mem_cons_self ..)
    rw [← PaddedFile.content_unused size 0] at file
    have answer := PaddedFile.lookup_recoverIndex (f := .flushed size 0 []) (by simp) file key
    rw [List.map_cons, List.cons_append, SSTableManager.get_cons, ih fun other member =>
      stored other (List.mem_cons_of_mem _ member),
      ← PaddedFile.content_unused size 0, answer]
    by_cases blank : 8 ≤ size ∧ key = []
    · simp [PaddedFile.flushed, blank]
    · simp [PaddedFile.flushed, blank]

end State

end LSMIO
