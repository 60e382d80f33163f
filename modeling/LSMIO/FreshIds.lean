import LSMIO.NewestFile

namespace LSMIO

theorem stoull_lt {text : Bytes} {n : Nat} (parsed : stoull text = some n) : n < 2 ^ 64 := by
  rw [stoull] at parsed
  obtain ⟨fits, value⟩ := Option.ite_none_left_eq_some.mp parsed
  have small := Nat.lt_of_not_le fun large => fits (.inr large)
  rw [← Option.some.inj value]
  split
  · exact Nat.mod_lt _ (by decide)
  · exact small

/-- The ids recovery reads from names are 64-bit numbers, whatever the names. -/
theorem parseId_lt {name : FileName} {id : Nat} (parsed : parseId name = some id) : id < 2 ^ 64 :=
  stoull_lt (Option.ite_none_right_eq_some.mp parsed).2

/-- Two files of a directory that sort before each other are one file. -/
theorem FoundBefore.antisymm {a b : Nat × FileName × Bytes} (before : FoundBefore a b) (after : FoundBefore b a) :
    a.1 = b.1 ∧ a.2.1 = b.2.1 := by
  rcases before with less | ⟨same, noGreater⟩
  · rcases after with more | ⟨same, -⟩
    · exact absurd less more.asymm
    · exact absurd same less.ne'
  · refine ⟨same, ?_⟩
    rcases after with more | ⟨-, noLess⟩
    · exact absurd same more.ne'
    · refine Std.LawfulEqOrd.eq_of_compare ?_
      cases order : compare a.2.1 b.2.1 with
      | eq => rfl
      | gt => exact absurd order noGreater
      | lt => exact absurd (Std.OrientedCmp.gt_iff_lt.mpr order) noLess

namespace State

/-- The store works on the files of its pool alone: those numbered from a
start id on and below the counter. -/
structure Confined (dir : Directory) (start : Nat) (s : State) : Prop where
  counter : start ≤ s.pool.nextId ∧ s.pool.nextId < 2 ^ 64
  waiting : ∀ id ∈ s.awaiting, start ≤ id ∧ id < s.pool.nextId
  others : ∀ name, (∀ id, start ≤ id → id < s.pool.nextId → name ≠ fileName id) → s.dir[name]? = dir[name]?

variable {cfg : Config} {dir : Directory} {start : Nat} {s s' : State}

theorem Confined.kept (confined : Confined dir start s) (awaiting : s'.awaiting.Sublist s.awaiting)
    (sameDir : s'.dir = s.dir) (nextId : s'.pool.nextId = s.pool.nextId) : Confined dir start s' := by
  refine ⟨nextId ▸ confined.counter, fun id member => ?_, ?_⟩
  · rw [nextId]
    exact confined.waiting id (awaiting.subset member)
  · rw [sameDir, nextId]
    exact confined.others

theorem Confined.step {e : Event} (confined : Confined dir start s) (taken : step cfg s e = some s') :
    Confined dir start s' := by
  cases step_files taken with
  | kept _ awaiting sameDir counter => exact confined.kept awaiting sameDir counter.nextId
  | published _ _ awaiting sameDir counter => exact confined.kept (awaiting ▸ .refl _) sameDir counter.nextId
  | @wrote fault m id _ acquired awaiting others counter =>
    refine ⟨counter.nextId ▸ confined.counter, fun n member => ?_, fun name outside => ?_⟩
    · rw [counter.nextId]
      exact confined.waiting n (awaiting ▸ List.mem_cons_of_mem _ member)
    · obtain ⟨above, below⟩ := confined.waiting id (awaiting ▸ List.mem_cons_self ..)
      rw [counter.nextId] at outside
      rw [others name (outside id above below), confined.others name outside]
  | @pooled event same done =>
    rcases done.files with ⟨awaiting, sameDir, nextId⟩ | ⟨grown, nextId, others⟩
    · exact confined.kept (awaiting ▸ .refl _) sameDir nextId
    · obtain ⟨above, -⟩ := confined.counter
      have bound : s.pool.nextId + 1 < 2 ^ 64 := by
        rcases (FilePool.replenish_cases done.replenished).1 with ⟨-, kept, -⟩ | ⟨-, -, bound⟩ | ⟨-, -, -, -, bound⟩
        · omega
        · exact bound
        · exact bound
      refine ⟨by omega, fun n member => ?_, fun name outside => ?_⟩
      · have from' : n ∈ s.awaiting ∨ n = s.pool.nextId := by
          rcases grown with same | ⟨more, -⟩
          · exact .inl (same ▸ member)
          · simpa [more] using member
        rw [nextId]
        rcases from' with old | rfl
        · have range := confined.waiting n old
          omega
        · omega
      · rw [nextId] at outside
        rw [others name (outside _ above (Nat.lt_succ_self _))]
        exact confined.others name fun id above' below => outside id above' (below.trans (Nat.lt_succ_self _))

theorem Confined.of_run {listed : List (FileName × Bytes)} {trace : List Event} {ok : State → Event → Prop}
    (run : Run (Allowed (State.step cfg) ok) (openStore cfg dir listed) trace s) :
    Confined dir (recoverState listed).2 s := by
  refine run.invariant (P := fun _ s => Confined dir (recoverState listed).2 s) ?_
    fun _ _ _ _ _ confined taken => confined.step taken.2
  refine ⟨⟨le_rfl, Nat.mod_lt _ (by decide)⟩, fun id member => ?_, fun _ _ => rfl⟩
  cases member

end State

/-- The ids the pool counts from the start id on are fresh for the directory
found: the start id is above every id read from a name; in every run, whatever
fails in it, no path made by the pool is that of a file found, the files found keep their bytes,
and the next recovery finds them first, in their order, and the new files behind them. -/
structure FreshIds (cfg : Config) (dir : Directory) (listed : List (FileName × Bytes)) : Prop where
  above : ∀ file ∈ foundFiles listed, file.1 < (recoverState listed).2
  generated : ∀ (trace : List Event) (s s' : State) (preOpened opened : Bool),
    Run (Allowed (State.step cfg) fun _ _ => True) (State.openStore cfg dir listed) trace s →
      State.step cfg s (.pool (.create preOpened opened)) = some s' → dir[fileName s.pool.nextId]? = none
  untouched : ∀ (trace : List Event) (s : State),
    Run (Allowed (State.step cfg) fun _ _ => True) (State.openStore cfg dir listed) trace s →
      ∀ (name : FileName) (content : Bytes), dir[name]? = some content → s.dir[name]? = some content
  behind : ∀ (trace : List Event) (s : State) (listed' : List (FileName × Bytes)),
    Run (Allowed (State.step cfg) fun _ _ => True) (State.openStore cfg dir listed) trace s →
      listed'.Perm s.dir.toList →
      ∃ new, foundFiles listed' = foundFiles listed ++ new ∧ ∀ file ∈ new, dir[file.2.1]? = none

section Fresh

variable {cfg : Config} {dir : Directory} {listed : List (FileName × Bytes)} (listing : listed.Perm dir.toList)
  (room : ∀ name content id, dir[name]? = some content → parseId name = some id → id + 1 < 2 ^ 64)

include listing room

/-- With room above the largest id, no file found has the name of an id from the start id on. -/
theorem fileName_absent {id : Nat} (above : (recoverState listed).2 ≤ id) (small : id < 2 ^ 64) :
    dir[fileName id]? = none := by
  rw [Option.eq_none_iff_forall_ne_some]
  intro content here
  have found := mem_foundFiles.mpr ⟨(mem_listing listing).mpr here, parseId_fileName small⟩
  exact absurd (above_of_room listing room found) above.not_gt

namespace State.Confined

variable {s : State} (confined : Confined dir (recoverState listed).2 s)

include confined

theorem untouched {name : FileName} {content : Bytes} (here : dir[name]? = some content) :
    s.dir[name]? = some content := by
  rw [confined.others name fun id above below => ?_, here]
  rintro rfl
  rw [fileName_absent listing room above (below.trans confined.counter.2)] at here
  cases here

omit listing room in
/-- A file that was not found is one of the pool. -/
theorem new {name : FileName} {content : Bytes} {id : Nat} (here : s.dir[name]? = some content)
    (absent : dir[name]? = none) (parsed : parseId name = some id) : (recoverState listed).2 ≤ id := by
  by_contra low
  rw [confined.others name fun n above below => ?_, absent] at here
  · cases here
  · rintro rfl
    rw [parseId_fileName (below.trans confined.counter.2)] at parsed
    exact low (Option.some.inj parsed ▸ above)

/-- The next recovery finds the old files first, each with its bytes. -/
theorem foundFiles_eq {listed' : List (FileName × Bytes)} (listing' : listed'.Perm s.dir.toList) :
    foundFiles listed' = foundFiles listed ++ foundFiles (listed'.filter fun entry => dir[entry.1]? = none) := by
  have sorted : ∀ entries, (foundFiles entries).Pairwise FoundBefore := fun _ => List.pairwise_insertionSort _ _
  have stored : ∀ {file}, file ∈ foundFiles listed' → s.dir[file.2.1]? = some file.2.2 := fun member =>
    (mem_listing listing').mp (mem_foundFiles.mp member).1
  have isNew : ∀ {file}, file ∈ foundFiles (listed'.filter fun entry => dir[entry.1]? = none) →
      file ∈ foundFiles listed' ∧ dir[file.2.1]? = none := by
    intro file member
    obtain ⟨inBoth, parsed⟩ := mem_foundFiles.mp member
    obtain ⟨inListed, absent⟩ := List.mem_filter.mp inBoth
    exact ⟨mem_foundFiles.mpr ⟨inListed, parsed⟩, by simpa using absent⟩
  have members : ∀ file, file ∈ foundFiles listed' ↔
      file ∈ foundFiles listed ++ foundFiles (listed'.filter fun entry => dir[entry.1]? = none) := by
    rintro ⟨id, name, content⟩
    rw [List.mem_append, mem_foundFiles, mem_foundFiles, mem_foundFiles, List.mem_filter, mem_listing listing,
      mem_listing listing']
    cases old : dir[name]? with
    | none => simp
    | some bytes =>
      rw [confined.untouched listing room old]
      simp
  have distinct : (foundFiles listed ++ foundFiles (listed'.filter fun entry => dir[entry.1]? = none)).Nodup := by
    refine List.nodup_append.mpr ⟨nodup_foundFiles (nodup_listing listing),
      nodup_foundFiles ((nodup_listing listing').filter _), fun file old other new same => ?_⟩
    have found := (mem_listing listing).mp (mem_foundFiles.mp old).1
    rw [same, (isNew new).2] at found
    cases found
  have sameFiles := (List.perm_ext_iff_of_nodup (nodup_foundFiles (nodup_listing listing')) distinct).mpr members
  refine sameFiles.eq_of_pairwise ?_ (sorted _)
    (List.pairwise_append.mpr ⟨sorted _, sorted _, fun file old other new => ?_⟩)
  · intro file other inFound inBoth before after
    obtain ⟨sameId, sameName⟩ := before.antisymm after
    have here := stored inFound
    have there := stored ((members _).mpr inBoth)
    rw [sameName, there] at here
    exact Prod.ext sameId (Prod.ext sameName (Option.some.inj here).symm)
  · obtain ⟨found, absent⟩ := isNew new
    have above := confined.new (stored found) absent (mem_foundFiles.mp found).2
    exact .inl ((above_of_room listing room old).trans_le above)

end State.Confined

end Fresh

/-- New ids are fresh for exactly the directories with no name that reads as
the largest 64-bit number, from which the start id wraps to zero. -/
theorem freshIds_iff (cfg : Config) {dir : Directory} {listed : List (FileName × Bytes)}
    (listing : listed.Perm dir.toList) :
    FreshIds cfg dir listed ↔ ∀ (name : FileName) (content : Bytes), dir[name]? = some content →
      parseId name ≠ some (2 ^ 64 - 1) := by
  constructor
  · intro fresh name content here parsed
    have above := fresh.above _ (mem_foundFiles.mpr ⟨(mem_listing listing).mpr here, parsed⟩)
    have small : (recoverState listed).2 < 2 ^ 64 := Nat.mod_lt _ (by decide)
    simp only at above
    omega
  · intro below
    have room : ∀ name content id, dir[name]? = some content → parseId name = some id → id + 1 < 2 ^ 64 := by
      intro name content id here parsed
      have small := parseId_lt parsed
      have noMax : id ≠ 2 ^ 64 - 1 := fun same => below name content here (same ▸ parsed)
      omega
    refine ⟨fun file member => above_of_room listing room member, fun trace s s' preOpened opened run _ => ?_,
      fun trace s run name content here => (State.Confined.of_run run).untouched listing room here,
      fun trace s listed' run listing' =>
      ⟨_, (State.Confined.of_run run).foundFiles_eq listing room listing', fun file member => ?_⟩⟩
    · have counter := (State.Confined.of_run run).counter
      exact fileName_absent listing room counter.1 counter.2
    · obtain ⟨inListed, -⟩ := mem_foundFiles.mp member
      simpa using (List.mem_filter.mp inListed).2

/-- The largest id with room above it, next to a name that is no number. -/
theorem freshIds_room : FreshIds ⟨100, 4, 2, 0⟩
    (.insert (.insert ∅ (ascii "L0-18446744073709551614.sst") []) (ascii "L0-x.sst") [])
    [(ascii "L0-x.sst", []), (ascii "L0-18446744073709551614.sst", [])] := by
  refine (freshIds_iff _ (by decide +kernel)).mpr fun name content here => ?_
  rw [OrderedMap.getElem?_insert, OrderedMap.getElem?_insert, Std.ExtTreeMap.getElem?_empty] at here
  split at here
  next same => exact same ▸ by decide +kernel
  next =>
    split at here
    next same => exact same ▸ by decide +kernel
    next => cases here

/-- A name with a minus sign reads as the largest number: the start id is zero,
and the first file of the pool empties a table that is already there. -/
theorem not_freshIds :
    (¬ ∀ (cfg : Config) (dir : Directory) (listed : List (FileName × Bytes)), listed.Perm dir.toList →
      FreshIds cfg dir listed) ∧
      ∃ s, Run (Allowed (State.step ⟨100, 4, 2, 0⟩) fun _ _ => True)
        (State.openStore ⟨100, 4, 2, 0⟩ (.insert (.insert ∅ (ascii "L0--1.sst") []) (fileName 0) (encodeRecord [1] [2]))
          [(ascii "L0--1.sst", []), (fileName 0, encodeRecord [1] [2])])
        [.pool .check, .pool (.create true true)] s ∧ s.dir[fileName 0]? = some [] := by
  refine ⟨fun always => ?_, Run.exists_of_any (by decide +kernel)⟩
  have above := (always ⟨100, 4, 2, 0⟩ (.insert ∅ (ascii "L0--1.sst") []) [(ascii "L0--1.sst", [])]
    (by decide +kernel)).above
    (2 ^ 64 - 1, ascii "L0--1.sst", []) (mem_foundFiles.mpr ⟨List.mem_singleton_self _, by decide +kernel⟩)
  have small : (recoverState [(ascii "L0--1.sst", [])]).2 < 2 ^ 64 := Nat.mod_lt _ (by decide)
  simp only at above
  omega

end LSMIO
