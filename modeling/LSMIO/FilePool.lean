import LSMIO.Flush

namespace LSMIO

/-- The name of the file with an id: six digits at least, filled with zeros. -/
def fileName (id : Nat) : FileName :=
  ascii "L0-" ++ (List.replicate (6 - (Decimal.digits id).length) 48 ++ Decimal.digits id) ++ ascii ".sst"

/-- Where the replenish worker stands in its loop. -/
inductive WorkerPc
  | waiting
  | needed
  | created (id : Nat)
  deriving DecidableEq

/-- `pool` holds the ids of the open files, the front first. -/
structure FilePool where
  poolSize : Nat
  preAllocationSize : Nat
  pool : List Nat
  nextId : Nat
  worker : WorkerPc

/-- The steps of the worker: the size test under the lock, the creation of a
file outside it (with the outcomes of the preallocating and of the final open), the insertion. -/
inductive PoolEvent
  | check
  | create (preOpened opened : Bool)
  | insert
  deriving DecidableEq

namespace FilePool

def new (poolSize startId preAllocationSize : Nat) : FilePool := ⟨poolSize, preAllocationSize, [], startId, .waiting⟩

/-- `posix_fallocate` from the start of the file: content is kept and a shorter file gets zeros. -/
def fallocate (content : Bytes) (size : Nat) : Bytes := content ++ List.replicate (size - content.length) 0

/-- Opening a file of the pool for writing. Without preallocation the file is
emptied; with it the file must exist and keeps its bytes. -/
def openFile (dir : Directory) (name : FileName) (preAllocationSize : Nat) (preOpened : Bool) : Option Directory :=
  if preAllocationSize = 0 then some (dir.insert name [])
  else if preOpened then some (dir.insert name (fallocate (dir[name]?.getD []) preAllocationSize))
  else if dir[name]?.isSome then some dir else none

/-- One step of `replenish`. Runs are followed as long as `fetch_add` does not wrap the counter. -/
def replenish (p : FilePool) (dir : Directory) : PoolEvent → Option (FilePool × Directory)
  | .check =>
    if p.worker = .waiting ∧ p.pool.length < p.poolSize then some ({ p with worker := .needed }, dir) else none
  | .create preOpened opened =>
    if p.worker = .needed ∧ p.nextId + 1 < 2 ^ 64 then
      let name := fileName p.nextId
      if opened then
        (openFile dir name p.preAllocationSize preOpened).map fun dir' =>
          ({ p with nextId := p.nextId + 1, worker := .created p.nextId }, dir')
      else
        let left := if p.preAllocationSize ≠ 0 ∧ preOpened then
            dir.insert name (fallocate (dir[name]?.getD []) p.preAllocationSize)
          else dir
        some ({ p with nextId := p.nextId + 1, worker := .waiting }, left)
    else none
  | .insert => match p.worker with
    | .created id => some ({ p with pool := p.pool ++ [id], worker := .waiting }, dir)
    | _ => none

/-- The front of a pool that is not empty. -/
def acquire (p : FilePool) : Option (Nat × FilePool) := match p.pool with
  | [] => none
  | id :: rest => some (id, { p with pool := rest })

/-- The files created and not yet handed out, in the order of their creation. -/
def ready (p : FilePool) : List Nat := p.pool ++ match p.worker with
  | .created id => [id]
  | _ => []

@[simp] theorem ready_new (poolSize startId preAllocationSize : Nat) :
    (new poolSize startId preAllocationSize).ready = [] := rfl

/-- Files are handed out in the order of their creation. -/
theorem ready_of_acquire {p p' : FilePool} {id : Nat} (front : p.acquire = some (id, p')) :
    p.ready = id :: p'.ready ∧ p'.nextId = p.nextId ∧ p'.preAllocationSize = p.preAllocationSize := by
  unfold acquire at front
  split at front
  · cases front
  next rest queue =>
    cases front
    exact ⟨by simp [ready, queue], rfl, rfl⟩

/-- What a step of the worker does to the files created and to the directory. -/
inductive Replenished (p : FilePool) (dir : Directory) (e : PoolEvent) (p' : FilePool) (dir' : Directory) : Prop
  | idle (ready : p'.ready = p.ready) (nextId : p'.nextId = p.nextId) (same : dir' = dir)
  | created (ready : p'.ready = p.ready ++ [p.nextId]) (nextId : p'.nextId = p.nextId + 1)
    (bound : p.nextId + 1 < 2 ^ 64)
      (others : ∀ name, name ≠ fileName p.nextId → dir'[name]? = dir[name]?)
      (emptied : p.preAllocationSize = 0 → dir'[fileName p.nextId]? = some [])
  | failed (preOpened : Bool) (closed : e = .create preOpened false) (ready : p'.ready = p.ready)
      (nextId : p'.nextId = p.nextId + 1) (bound : p.nextId + 1 < 2 ^ 64)
      (others : ∀ name, name ≠ fileName p.nextId → dir'[name]? = dir[name]?)

theorem openFile_spec {dir dir' : Directory} {name : FileName} {preAllocationSize : Nat} {preOpened : Bool}
    (opened : openFile dir name preAllocationSize preOpened = some dir') :
    (∀ other, other ≠ name → dir'[other]? = dir[other]?) ∧ (preAllocationSize = 0 → dir'[name]? = some []) := by
  unfold openFile at opened
  split at opened
  next =>
    cases opened
    refine ⟨fun other different => ?_, fun _ => ?_⟩
    · rw [OrderedMap.getElem?_insert, if_neg different.symm]
    · rw [OrderedMap.getElem?_insert, if_pos rfl]
  next nonzero =>
    split at opened
    · cases opened
      refine ⟨fun other different => ?_, fun zero => absurd zero nonzero⟩
      rw [OrderedMap.getElem?_insert, if_neg different.symm]
    · split at opened
      · cases opened
        exact ⟨fun _ _ => rfl, fun zero => absurd zero nonzero⟩
      · cases opened

theorem replenish_cases {p p' : FilePool} {dir dir' : Directory} {e : PoolEvent}
    (done : p.replenish dir e = some (p', dir')) :
    Replenished p dir e p' dir' ∧ p'.preAllocationSize = p.preAllocationSize := by
  cases e with
  | check =>
    simp only [replenish] at done
    split at done
    next free =>
      cases done
      exact ⟨.idle (by simp [ready, free.1]) rfl rfl, rfl⟩
    next => cases done
  | create preOpened opened =>
    simp only [replenish] at done
    split at done
    next turn =>
      split at done
      next =>
        obtain ⟨after, opening, made⟩ := Option.map_eq_some_iff.mp done
        cases made
        obtain ⟨others, emptied⟩ := openFile_spec opening
        exact ⟨.created (by simp [ready, turn.1]) rfl turn.2 others emptied, rfl⟩
      next shut =>
        cases done
        refine ⟨.failed preOpened (by rw [Bool.eq_false_iff.mpr shut]) (by simp [ready, turn.1]) rfl turn.2 ?_, rfl⟩
        intro name different
        split
        · rw [OrderedMap.getElem?_insert, if_neg different.symm]
        · rfl
    next => cases done
  | insert =>
    simp only [replenish] at done
    split at done
    next id made =>
      cases done
      exact ⟨.idle (by simp [ready, made]) rfl rfl, rfl⟩
    next => cases done

end FilePool

/-- Distinct ids have distinct files. -/
theorem fileName_injective : Function.Injective fileName := by
  intro id id' same
  have middle := List.append_cancel_left (List.append_cancel_right same)
  have numbers := congrArg Decimal.value middle
  rwa [Decimal.value_zeros_append, Decimal.value_zeros_append, Decimal.value_digits, Decimal.value_digits] at numbers

end LSMIO
