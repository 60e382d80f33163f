import LSMIO.FreshIds

namespace LSMIO

/-- The files of a directory that an earlier one did not have. -/
def newFiles (base dir : Directory) : Directory := dir.filter fun name _ => base[name]?.isNone

theorem getElem?_newFiles (base dir : Directory) (name : FileName) :
    (newFiles base dir)[name]? = if base[name]? = none then dir[name]? else none := by
  rw [newFiles, Std.ExtTreeMap.getElem?_filter']
  cases base[name]? with
  | none => cases dir[name]? <;> simp
  | some bytes => cases dir[name]? <;> simp

theorem getElem?_newFiles_of_none {base dir : Directory} {name : FileName} (absent : base[name]? = none) :
    (newFiles base dir)[name]? = dir[name]? := by
  rw [getElem?_newFiles, if_pos absent]

@[simp] theorem newFiles_self (dir : Directory) : newFiles dir dir = ∅ := by
  refine Std.ExtTreeMap.ext_getElem? fun name => ?_
  rw [getElem?_newFiles, Std.ExtTreeMap.getElem?_empty]
  split
  next absent => exact absent
  next => rfl

theorem newFiles_insert {base dir : Directory} {name : FileName} (absent : base[name]? = none) (content : Bytes) :
    newFiles base (dir.insert name content) = (newFiles base dir).insert name content := by
  refine Std.ExtTreeMap.ext_getElem? fun other => ?_
  rw [getElem?_newFiles, OrderedMap.getElem?_insert, OrderedMap.getElem?_insert, getElem?_newFiles]
  by_cases here : name = other
  · subst here
    rw [if_pos rfl, if_pos rfl, if_pos absent]
  · rw [if_neg here, if_neg here]

namespace FilePool

theorem openFile_newFiles {base dir dir' : Directory} {name : FileName} {preAllocationSize : Nat} {preOpened : Bool}
    (absent : base[name]? = none) (opened : openFile dir name preAllocationSize preOpened = some dir') :
    openFile (newFiles base dir) name preAllocationSize preOpened = some (newFiles base dir') := by
  unfold openFile at opened ⊢
  rw [getElem?_newFiles_of_none absent]
  split at opened
  next none =>
    rw [if_pos none, ← newFiles_insert absent]
    exact congrArg (fun d => some (newFiles base d)) (Option.some.inj opened)
  next size =>
    rw [if_neg size]
    split at opened
    next pre =>
      rw [if_pos pre, ← newFiles_insert absent]
      exact congrArg (fun d => some (newFiles base d)) (Option.some.inj opened)
    next pre =>
      rw [if_neg pre]
      split at opened
      next here =>
        rw [if_pos here]
        exact congrArg (fun d => some (newFiles base d)) (Option.some.inj opened)
      next => cases opened

/-- The worker does to the new files what it does to the whole directory. -/
theorem replenish_newFiles {base dir dir' : Directory} {p p' : FilePool} {event : PoolEvent}
    (absent : base[fileName p.nextId]? = none) (done : p.replenish dir event = some (p', dir')) :
    p.replenish (newFiles base dir) event = some (p', newFiles base dir') := by
  cases event with
  | check =>
    simp only [replenish] at done ⊢
    split at done
    next free =>
      cases done
      rw [if_pos free]
    next => cases done
  | create preOpened opened =>
    simp only [replenish, getElem?_newFiles_of_none absent] at done ⊢
    split at done
    next turn =>
      rw [if_pos turn]
      split at done
      next yes =>
        rw [if_pos yes]
        obtain ⟨after, opening, made⟩ := Option.map_eq_some_iff.mp done
        cases made
        rw [openFile_newFiles absent opening, Option.map_some]
      next no =>
        rw [if_neg no]
        cases done
        split
        next => rw [newFiles_insert absent]
        next => rfl
    next => cases done
  | insert =>
    simp only [replenish] at done ⊢
    split at done
    next =>
      cases done
      rfl
    next => cases done

end FilePool

namespace State

/-- The store on its own files alone, without those found at its opening. -/
def own (base : Directory) (s : State) : State := { s with dir := newFiles base s.dir }

/-- What a step does to the files of the store it would do in a directory that held no others. -/
theorem Effect.own {base : Directory} {s s' : State} {e : Event}
    (absent : ∀ id ∈ s.hand.ids ++ [s.pool.nextId], base[fileName id]? = none) (effect : Effect s e s') :
    Effect (s.own base) e (s'.own base) := by
  cases effect with
  | memory done =>
    exact .memory ⟨congrArg (newFiles base) done.dir, done.pool, done.head, done.hand, done.pending, done.memData,
      done.active⟩
  | acquired silent done =>
    exact .acquired silent ⟨done.taken, done.front, congrArg (newFiles base) done.dir, done.head, done.hand,
      ⟨done.memory.immutables, done.memory.active⟩⟩
  | @written m id silent done =>
    have free : base[fileName id]? = none := absent id (by simp [done.acquired, Hand.ids])
    refine .written silent ⟨done.acquired, done.pool, done.head, ?_, done.hand,
      ⟨done.memory.immutables, done.memory.active⟩⟩
    have dir : (s'.own base).dir = newFiles base s'.dir := rfl
    rw [dir, done.dir, newFiles_insert free]
    exact congrArg _ (by rw [State.own, getElem?_newFiles_of_none free])
  | published silent done =>
    exact .published silent ⟨done.written, congrArg (newFiles base) done.dir, done.pool, done.head, done.hand,
      ⟨done.memory.immutables, done.memory.active⟩⟩
  | pooled same done =>
    exact .pooled same ⟨FilePool.replenish_newFiles (absent s.pool.nextId (by simp)) done.replenished, done.head,
      done.hand, ⟨done.memory.immutables, done.memory.active⟩⟩

section Kept

variable {found : Padded} {first s s' : State} {trace : List Event} {flushed : Flushed} {e : Event}

/-- Without preallocation a file that does not open leaves nothing behind. -/
theorem Session.unopened (session : Session 0 found first s flushed) {preOpened : Bool}
    (done : PoolStep s (.create preOpened false) s') : Session 0 found first s' flushed := by
  have replenished := done.replenished
  have noPrealloc : ¬ (s.pool.preAllocationSize ≠ 0 ∧ preOpened = true) := fun pre => pre.1 session.preAlloc
  simp only [FilePool.replenish, Bool.false_eq_true, if_false, if_neg noPrealloc] at replenished
  split at replenished
  next turn =>
    obtain ⟨pool, dir⟩ := Prod.mk.inj (Option.some.inj replenished)
    have ready : s'.pool.ready = s.pool.ready := by
      rw [← pool]
      simp [FilePool.ready, turn.1]
    have issued : s'.issued flushed = s.issued flushed := by rw [issued, issued, done.hand, ready]
    refine ⟨?_, session.past, ?_, ?_, ?_⟩
    · rw [padded, done.hand, ready, ← dir]
      exact session.described
    · rw [issued]
      exact session.started
    · rw [← pool]
      exact ⟨session.counter.1.trans (Nat.le_succ _), turn.2⟩
    · rw [← pool]
      exact session.preAlloc
  next => cases replenished

theorem Session.kept_unpadded (session : Session 0 found first s flushed) (inv : Inv first trace s flushed)
    (effect : Effect s e s') :
    ∃ flushed', Inv first (trace ++ [e]) s' flushed' ∧ Session 0 found first s' flushed' := by
  by_cases opened : e.opened = true
  · exact session.kept inv opened effect
  · cases effect with
    | memory done => exact ⟨flushed, inv.memory done, session.memory done⟩
    | acquired silent done => exact ⟨flushed, inv.acquired silent done, session.acquired done⟩
    | written silent done => exact ⟨flushed, inv.wrote silent done, session.wrote inv done⟩
    | published silent done => exact ⟨_, inv.published silent done, session.published done⟩
    | @pooled event same done =>
      refine ⟨flushed, inv.pooled same done, ?_⟩
      subst same
      cases event with
      | check | insert => exact absurd rfl opened
      | create preOpened ready =>
        cases ready with
        | true => exact absurd rfl opened
        | false => exact session.unopened done

end Kept

variable {cfg : Config} {dir : Directory} {listed : List (FileName × Bytes)} {ok : State → Event → Prop}
    {trace : List Event} {s : State}

/-- The files the store is working on are none of those found. -/
theorem Session.absent {flushed : Flushed} (listing : listed.Perm dir.toList)
    (room : ∀ name content id, dir[name]? = some content → parseId name = some id → id + 1 < 2 ^ 64)
    (session : Session 0 [] ((State.openStore cfg dir listed).own dir) (s.own dir) flushed)
    (inv : Inv ((State.openStore cfg dir listed).own dir) trace (s.own dir) flushed) :
    ∀ id ∈ s.hand.ids ++ [s.pool.nextId], dir[fileName id]? = none := by
  intro id member
  have counter : (recoverState listed).2 ≤ s.pool.nextId ∧ s.pool.nextId < 2 ^ 64 := session.counter
  rcases List.mem_append.mp member with inHand | next
  · have inIssued : id ∈ (s.own dir).issued flushed := by
      simp only [issued, List.mem_append]
      exact .inl (.inr inHand)
    exact fileName_absent listing room (session.started id inIssued) ((inv.below id inIssued).trans counter.2)
  · rw [List.mem_singleton.mp next]
    exact fileName_absent listing room counter.1 counter.2

/-- Over any directory whose ids leave room, and without preallocation, the files a run adds are those
of a session that begins with no file. -/
theorem Session.own_of_run (noPrealloc : cfg.preAllocBytes = 0) (intact : ∀ s e, ok s e → e.intact = true)
    (listing : listed.Perm dir.toList)
    (room : ∀ name content id, dir[name]? = some content → parseId name = some id → id + 1 < 2 ^ 64)
    (run : Run (Allowed (step cfg) ok) (State.openStore cfg dir listed) trace s) :
    ∃ flushed, Inv ((State.openStore cfg dir listed).own dir) trace (s.own dir) flushed ∧
      Session 0 [] ((State.openStore cfg dir listed).own dir) (s.own dir) flushed := by
  have small : (recoverState listed).2 < 2 ^ 64 := Nat.mod_lt _ (by decide)
  refine run.invariant
    (P := fun trace s => ∃ flushed, Inv ((State.openStore cfg dir listed).own dir) trace (s.own dir) flushed ∧
    Session 0 [] ((State.openStore cfg dir listed).own dir) (s.own dir) flushed)
    ⟨[], .initial rfl rfl rfl, ?_, by simp, ?_, ⟨le_rfl, small⟩, noPrealloc⟩ ?_
  · have empty : ((State.openStore cfg dir listed).own dir).dir = ∅ := newFiles_self dir
    rw [empty]
    exact .empty
  · simp [issued, own, State.openStore, Hand.ids]
  rintro trace s e s' - ⟨flushed, inv, session⟩ ⟨allowed, taken⟩
  exact session.kept_unpadded inv ((step_effect taken (intact s e allowed)).own (session.absent listing room inv))

end State

end LSMIO
