import LSMIO.SharedTableReads

namespace LSMIO

/-- The memtable a thread has acquired a file for last, in a history with the newest event first. -/
def acquiredBy (t : Tid) : List TableEvent → Option Memtable
  | [] => none
  | .acquire u m true :: older => if u = t then some m else acquiredBy t older
  | _ :: older => acquiredBy t older

/-- The memtables whose tables have been pushed, the newest first. -/
def published : List TableEvent → List Memtable
  | [] => []
  | .push t :: older => (acquiredBy t older).toList ++ published older
  | _ :: older => published older

/-- No write fails within the record loop. -/
def TableEvent.Intact : TableEvent → Prop
  | .write _ (some _) => False
  | _ => True

theorem acquiredBy_cons {t : Tid} {e : TableEvent} (other : ∀ m, e ≠ .acquire t m true) (history : List TableEvent) :
    acquiredBy t (e :: history) = acquiredBy t history := by
  cases e with
  | acquire u m good =>
    cases good with
    | false => rfl
    | true =>
      have different : u ≠ t := by
        rintro rfl
        exact other m rfl
      rw [acquiredBy, if_neg different]
  | write | load | push | retry | pool | query | visit | ret => rfl

theorem published_cons {e : TableEvent} (silent : ∀ t, e ≠ .push t) (history : List TableEvent) :
    published (e :: history) = published history := by
  cases e with
  | push t => exact absurd rfl (silent t)
  | acquire | write | load | retry | pool | query | visit | ret => rfl

instance : DecidablePred TableEvent.Intact := fun e => by
  unfold TableEvent.Intact
  split <;> infer_instance

namespace SharedTables

/-- The list holds the tables of the memtables published, and every memtable on its way there is the one its thread
acquired last. -/
structure Publishes (first : SharedTables) (recovered : List L0Index) (history : List TableEvent) (s : SharedTables)
    (chain : List (Nat × L0Index)) (tables : Tables) : Prop where
  list : chain.map Prod.snd = tables.map (fun table => tableOf table.1 table.2) ++ recovered
  log : tables.map Prod.snd = (published history).map Memtable.data
  stored : Stored s.dir tables
  writing : ∀ t m id, s.writing t = some (m, id) → acquiredBy t history = some m
  underWay : ∀ t address, (s.list.pushing t).node = some address → ∃ m name padding, acquiredBy t history = some m ∧
    s.list.nodes[address]?.map Prod.fst = some (tableOf name m.data) ∧
      s.dir[name]? = some (encodeRecords m.data ++ padding)
  old : ∀ index ∈ recovered, s.dir[index.path]? = first.dir[index.path]?

variable {s s' first : SharedTables} {e : TableEvent} {chain chain' : List (Nat × L0Index)} {recovered : List L0Index}
  {history : List TableEvent} {tables : Tables}

/-- A file of the list, by one of its tables. -/
theorem KeepsFiles.listed (files : KeepsFiles s s') (inv : Inv s chain) {index : L0Index}
    (member : index ∈ chain.map Prod.snd) :
    s'.dir[index.path]? = s.dir[index.path]? := by
  obtain ⟨node, inNodes, rfl⟩ := inv.sound.linked.mem_nodes index member
  exact files node inNodes

/-- The tables stay where the list does. -/
theorem Publishes.kept (publishes : Publishes first recovered history s chain tables) (inv : Inv s chain)
    (follows : Follows s s' e chain chain') (silent : s.pushes e = none)
      (log : published (e :: history) = published history)
    (writing : ∀ t m id, s'.writing t = some (m, id) → acquiredBy t (e :: history) = some m)
    (underWay : ∀ t address, (s'.list.pushing t).node = some address → ∃ m name padding,
      acquiredBy t (e :: history) = some m ∧
      s'.list.nodes[address]?.map Prod.fst = some (tableOf name m.data) ∧
      s'.dir[name]? = some (encodeRecords m.data ++ padding)) :
    Publishes first recovered (e :: history) s' chain' tables := by
  have list : chain'.map Prod.snd = chain.map Prod.snd := by rw [follows.tables, silent]; rfl
  refine ⟨list.trans publishes.list, log ▸ publishes.log, fun table member => ?_, writing, underWay,
    fun index member => ?_⟩
  · obtain ⟨padding, file⟩ := publishes.stored table member
    have listed : tableOf table.1 table.2 ∈ chain.map Prod.snd := by
      rw [publishes.list]
      exact List.mem_append_left _ (List.mem_map_of_mem (f := fun table => tableOf table.1 table.2) member)
    exact ⟨padding, (follows.files.listed inv listed).trans file⟩
  · have listed : index ∈ chain.map Prod.snd := by
      rw [publishes.list]
      exact List.mem_append_right _ member
    exact (follows.files.listed inv listed).trans (publishes.old index member)

/-- The nodes under way keep their tables and their files. -/
theorem Publishes.underWay_kept (publishes : Publishes first recovered history s chain tables)
    (follows : Follows s s' e chain chain') {t : Tid} {address : Nat} (now : (s.list.pushing t).node = some address)
    (values : ∀ value, s.list.nodes[address]?.map Prod.fst = some value →
      s'.list.nodes[address]?.map Prod.fst = some value) :
    ∃ m name padding, acquiredBy t history = some m ∧
      s'.list.nodes[address]?.map Prod.fst = some (tableOf name m.data) ∧
        s'.dir[name]? = some (encodeRecords m.data ++ padding) := by
  obtain ⟨m, name, padding, mine, value, file⟩ := publishes.underWay t address now
  obtain ⟨node, at', table⟩ := Option.map_eq_some_iff.mp value
  refine ⟨m, name, padding, mine, values _ value, ?_⟩
  have path : node.1.path = name := by rw [table, tableOf_path]
  rw [← path, follows.files node (List.mem_of_getElem? at'), path, file]

theorem written_intact (s : SharedTables) (m : Memtable) (id : Nat) :
    (s.written none m id).2 = tableOf (fileName id) m.data ∧
      ∃ padding, (s.written none m id).1.content = encodeRecords m.data ++ padding := by
  have record := writeRecords_intact [] (s.dir[fileName id]?.getD []) m.data
  simp only [List.nil_append, List.length_nil] at record
  simp only [written, OStream.opened, record]
  exact ⟨rfl, _, rfl⟩

/-- A step of the list that pushes nothing. -/
theorem Publishes.relinked (publishes : Publishes first recovered history s chain tables) (inv : Inv s chain)
    {pe : PushEvent Tid L0Index} {list : PushList Tid L0Index} (linked : s.list.step pe = some list)
    (follows : Follows s { s with list := list } e chain chain') (allocates : ∀ t value, pe ≠ .new t value)
    (silent : s.pushes e = none) (pushes : ∀ t, e ≠ .push t) (acquires : ∀ t m, e ≠ .acquire t m true) :
    Publishes first recovered (e :: history) { s with list := list } chain' tables := by
  refine publishes.kept inv follows silent (published_cons pushes _) (fun t m id now => ?_) fun t address now => ?_
  · rw [acquiredBy_cons (acquires t)]
    exact publishes.writing t m id now
  · rw [acquiredBy_cons (acquires t)]
    rcases PushList.node_of_step linked now with before | ⟨value, fresh, -⟩
    · exact publishes.underWay_kept follows before fun value => PushList.value_kept linked
    · exact absurd fresh (allocates t value)

theorem Publishes.pushed (publishes : Publishes first recovered history s chain tables) {t : Tid}
    {list : PushList Tid L0Index} (linked : s.list.step (.push t) = some list)
    (follows : Follows s { s with list := list } (.push t) chain chain') :
    ∃ tables', Publishes first recovered (.push t :: history) { s with list := list } chain' tables' := by
  obtain ⟨address, mine⟩ := PushList.node_of_push linked
  obtain ⟨m, name, padding, acquired, value, file⟩ := publishes.underWay t address mine
  have table : s.pushes (.push t) = some (tableOf name m.data) := by
    rw [pushes, PushList.pushed, mine, Option.bind_some, value]
  refine ⟨(name, m.data) :: tables, ?_, ?_, ?_, publishes.writing, fun u address' now => ?_, publishes.old⟩
  · rw [follows.tables, table, publishes.list]
    rfl
  · rw [published, acquired, List.map_cons, publishes.log]
    rfl
  · intro table member
    rcases List.mem_cons.mp member with rfl | older
    · exact ⟨padding, file⟩
    · exact publishes.stored table older
  · rcases PushList.node_of_step linked now with before | ⟨value, fresh, -⟩
    · exact publishes.underWay_kept follows before fun value => PushList.value_kept linked
    · cases fresh

theorem Publishes.step (publishes : Publishes first recovered history s chain tables) (inv : Inv s chain)
    (intact : e.Intact) (taken : s.step e = some s') :
    ∃ chain' tables', Inv s' chain' ∧ Publishes first recovered (e :: history) s' chain' tables' := by
  obtain ⟨chain', follows⟩ := inv.step taken
  have same (dir : Directory) (pool : FilePool) (reading : Tid → TableWalk)
      (follows : Follows s { s with dir := dir, pool := pool, reading := reading } e chain chain')
        (silent : s.pushes e = none)
      (pushes : ∀ t, e ≠ .push t) (acquires : ∀ t m, e ≠ .acquire t m true) :
      Publishes first recovered (e :: history)
        { s with dir := dir, pool := pool, reading := reading } chain' tables := by
    refine publishes.kept inv follows silent (published_cons pushes _) (fun t m id now => ?_) fun t address now => ?_
    · rw [acquiredBy_cons (acquires t)]
      exact publishes.writing t m id now
    · rw [acquiredBy_cons (acquires t)]
      exact publishes.underWay_kept follows now fun _ here => here
  cases step_cases taken with
  | @acquired t m id pool good entries free idle front =>
    have others : ∀ u, u ≠ t → acquiredBy u (.acquire t m good :: history) = acquiredBy u history := by
      intro u here
      refine acquiredBy_cons (fun m' same => ?_) history
      cases same
      exact here rfl
    refine ⟨chain', tables, follows.inv, publishes.kept inv follows rfl rfl (fun u m' id' now => ?_)
      fun u address now => ?_⟩
    · cases good with
      | false =>
        rw [acquiredBy_cons (by simp)]
        exact publishes.writing u m' id' now
      | true =>
        rcases update_eq_some now with ⟨rfl, fresh⟩ | ⟨here, before⟩
        · cases fresh
          rw [acquiredBy, if_pos rfl]
        · rw [others u here]
          exact publishes.writing u m' id' before
    · have here : u ≠ t := by
        rintro rfl
        have free : s.list.pushing u = .idle := idle
        rw [show ({ s with pool := pool } : SharedTables).list.pushing u = .idle from free] at now
        cases now
      rw [others u here]
      exact publishes.underWay_kept follows now fun _ value => value
  | @wrote t m id list fault held linked =>
    cases fault with
    | some => exact intact.elim
    | none =>
      obtain ⟨table, padding, content⟩ := s.written_intact m id
      refine ⟨chain', tables, follows.inv, publishes.kept inv follows rfl rfl (fun u m' id' now => ?_)
        fun u address now => ?_⟩
      · rw [acquiredBy_cons (by simp)]
        rcases update_eq_some now with ⟨-, none'⟩ | ⟨-, before⟩
        · cases none'
        · exact publishes.writing u m' id' before
      · rw [acquiredBy_cons (by simp)]
        rcases PushList.node_of_step linked now with before | ⟨value, fresh, new⟩
        · exact publishes.underWay_kept follows before fun value => PushList.value_kept linked
        · cases fresh
          refine ⟨m, fileName id, padding, publishes.writing t m id held, table ▸ new, ?_⟩
          rw [OrderedMap.getElem?_insert, if_pos rfl, content]
  | linked which linked =>
    obtain ⟨t, ⟨rfl, rfl⟩ | ⟨rfl, rfl⟩ | ⟨rfl, rfl⟩⟩ := which
    · exact ⟨chain', tables, follows.inv, publishes.relinked inv linked follows (by simp) rfl (by simp) (by simp)⟩
    · obtain ⟨tables', pushed⟩ := publishes.pushed linked follows
      exact ⟨chain', tables', follows.inv, pushed⟩
    · exact ⟨chain', tables, follows.inv, publishes.relinked inv linked follows (by simp) rfl (by simp) (by simp)⟩
  | pooled | got | scanned | visited | returned =>
    exact ⟨chain', tables, follows.inv, same _ _ _ follows rfl (by simp) (by simp)⟩

theorem Publishes.start {entries : List (FileName × Bytes)} {poolSize preAllocBytes : Nat} {dir : Directory}
    (tables : chain.map Prod.snd = (recoverState entries).1) :
    Publishes (SharedTables.start poolSize preAllocBytes dir entries) (recoverState entries).1 []
      (SharedTables.start poolSize preAllocBytes dir entries) chain [] where
  list := tables
  log := rfl
  stored := fun table member => by cases member
  writing := fun t m id now => by cases now
  underWay := fun t address now => by cases now
  old := fun _ _ => rfl

variable {poolSize preAllocBytes : Nat} {dir : Directory} {entries : List (FileName × Bytes)} {trace : List TableEvent}

theorem Publishes.of_run (room : maxId (foundFiles entries) + 1 < 2 ^ 64)
    (run : Run (Allowed SharedTables.step fun _ e => e.Intact)
      (SharedTables.start poolSize preAllocBytes dir entries) trace s) :
    ∃ chain tables, Inv s chain ∧
      Publishes (SharedTables.start poolSize preAllocBytes dir entries)
        (recoverState entries).1 trace.reverse s chain tables := by
  obtain ⟨chain, inv, tables⟩ := Inv.start room poolSize preAllocBytes dir
  refine run.invariant (P := fun trace s => ∃ chain tables, Inv s chain ∧
    Publishes (SharedTables.start poolSize preAllocBytes dir entries)
    (recoverState entries).1 trace.reverse s chain tables)
    ⟨chain, [], inv, .start tables⟩ ?_
  rintro trace s e s' - ⟨chain, tables, inv, publishes⟩ ⟨intact, taken⟩
  rw [List.reverse_append]
  exact publishes.step inv intact taken

/-- However many threads flush at once, and however their steps interleave: at each moment the list
answers as if the memtables pushed so far had been flushed one after the other, in the order of their
pushes, into a database that had only the tables recovered. -/
theorem flushes_in_order (room : maxId (foundFiles entries) + 1 < 2 ^ 64)
    (run : Run (Allowed SharedTables.step fun _ e => e.Intact)
      (SharedTables.start poolSize preAllocBytes dir entries) trace s)
    (short : ∀ m ∈ published trace.reverse, ∀ entry ∈ m.data, Short entry) (key : Key) :
    SSTableManager.get (readValueAt s.dir) s.list.values key =
      (lastValue ((published trace.reverse).reverse.flatMap Memtable.data) key).or
        (SSTableManager.get (readValueAt dir) (recoverState entries).1 key) := by
  obtain ⟨chain, tables, inv, publishes⟩ := Publishes.of_run room run
  have log : tables.log = (published trace.reverse).reverse.flatMap Memtable.data := by
    rw [Tables.log, List.flatMap_def, List.map_reverse, publishes.log, List.map_reverse]
  have shortLog : ∀ entry ∈ tables.log, Short entry := by
    rw [log]
    intro entry member
    obtain ⟨m, inPublished, here⟩ := List.mem_flatMap.mp member
    exact short m (List.mem_reverse.mp inPublished) entry here
  have base : SSTableManager.get (readValueAt s.dir) (recoverState entries).1 key =
      SSTableManager.get (readValueAt dir) (recoverState entries).1 key := by
    refine SSTableManager.get_congr (fun index member => ?_) key
    funext offset key
    rw [readValueAt, readValueAt, publishes.old index member]
    rfl
  rw [inv.sound.values_eq, publishes.list, get_tables publishes.stored shortLog, log, base]

/-- The thread with the newer file pushes first: the other one's memtable counts as the later. -/
theorem flushes_in_order_two : ∃ s : SharedTables, s.list.values.map (·.path) = [fileName 1, fileName 2] ∧
    SSTableManager.get (readValueAt s.dir) s.list.values [1] = some [5] := by
  obtain ⟨s, run, paths⟩ : ∃ s, Run (Allowed SharedTables.step fun _ e => e.Intact) (SharedTables.start 2 0 ∅ [])
      [.pool .check, .pool (.create true true), .pool .insert, .pool .check, .pool (.create true true), .pool .insert,
        .acquire 1 (Memtable.new.add [1] [5]) true, .acquire 2 (Memtable.new.add [1] [6]) true, .write 1 none,
        .write 2 none, .load 1, .load 2, .push 2, .retry 1, .push 1] s ∧
      s.list.values.map (·.path) = [fileName 1, fileName 2] :=
    Run.exists_of_any (by decide +kernel)
  exact ⟨s, paths, (flushes_in_order (by decide +kernel) run (by decide +kernel) [1]).trans (by decide +kernel)⟩

end SharedTables

end LSMIO
