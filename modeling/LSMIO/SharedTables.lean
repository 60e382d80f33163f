import LSMIO.Library.PushList
import LSMIO.FlushInvisible

namespace LSMIO

/-- What a reader asks of the tables. A scan goes on from what the memtables have shown. -/
inductive Query
  | get (key : Key)
  | scan (prefixKey : Key) (acc : Results × DeletedKeys)

inductive Answer
  | value (found : Option Value)
  | results (acc : (Results × DeletedKeys) × Bool)

/-- The answer, were the list and the files to stand still. -/
def Query.answer (read : SSTableManager.Reader) (tables : List L0Index) : Query → Answer
  | .get key => .value (SSTableManager.get read tables key)
  | .scan prefixKey acc => .results (SSTableManager.scan read tables prefixKey acc)

/-- Where a thread stands in `get` or `scan`: before the node at `curr`, for a scan with the entries
of the node before it that are still to read. -/
inductive TableWalk
  | idle
  | getting (key : Key) (curr : Option Nat)
  | scanning (prefixKey : Key) (path : FileName) (entries : Index Key) (curr : Option Nat)
    (acc : (Results × DeletedKeys) × Bool)
  | answered (answer : Answer)

/-- `SSTableManager` with its threads. `writing` is the memtable a thread has in `flushMemtable`, with
the id of the file it has acquired. -/
structure SharedTables where
  dir : Directory
  pool : FilePool
  list : PushList Tid L0Index
  writing : Tid → Option (Memtable × Nat)
  reading : Tid → TableWalk

/-- The steps of the threads. `write` is the record loop, and the node allocated for its index. -/
inductive TableEvent
  | acquire (t : Tid) (m : Memtable) (good : Bool)
  | write (t : Tid) (fault : Option (Nat × Nat))
  | load (t : Tid)
  | push (t : Tid)
  | retry (t : Tid)
  | pool (e : PoolEvent)
  | query (t : Tid) (q : Query)
  | visit (t : Tid)
  | ret (t : Tid)

/-- The thread that begins to read. -/
def TableEvent.asker : TableEvent → Option Tid
  | .query t _ => some t
  | _ => none

namespace SharedTables

/-- The constructor: one thread pushes the tables it recovers. -/
def start (poolSize preAllocBytes : Nat) (dir : Directory) (entries : List (FileName × Bytes)) : SharedTables :=
  { dir := dir
    pool := FilePool.new poolSize (recoverState entries).2 preAllocBytes
    list := PushList.start (recoverState entries).1
    writing := fun _ => none
    reading := fun _ => .idle }

/-- One node of `get`, or one entry or node of `scan`. -/
def visit (s : SharedTables) : TableWalk → Option TableWalk
  | .getting _ none => some (.answered (.value none))
  | .getting key (some address) => (s.list.nodes[address]?).map fun node =>
      match SSTableManager.lookup (readValueAt s.dir) node.1 key with
      | some value => .answered (.value (some value))
      | none => .getting key node.2
  | .scanning prefixKey path (entry :: rest) curr acc =>
    some (.scanning prefixKey path rest curr (SSTableManager.scanOffset (readValueAt s.dir) path acc entry))
  | .scanning _ _ [] none acc => some (.answered (.results acc))
  | .scanning prefixKey _ [] (some address) acc => (s.list.nodes[address]?).map fun node =>
      .scanning prefixKey node.1.path
        ((node.1.offsets.lowerBound prefixKey).takeWhile fun entry => prefixKey.isPrefixOf entry.1) node.2 acc
  | .idle | .answered _ => none

def step (s : SharedTables) : TableEvent → Option SharedTables
  | .acquire t m good =>
    if m.empty = false ∧ s.writing t = none ∧ s.list.pushing t = .idle then
      s.pool.acquire.map fun front =>
        { s with pool := front.2
                 writing := if good then Function.update s.writing t (some (m, front.1)) else s.writing }
    else none
  | .write t fault => match s.writing t with
    | some (m, id) =>
      let name := fileName id
      let (stream, offsets) := writeRecords fault (OStream.opened (s.dir[name]?.getD [])) m.data
      (s.list.step (.new t (L0Index.build name offsets))).map fun list =>
        { s with dir := s.dir.insert name stream.content, list := list, writing := Function.update s.writing t none }
    | none => none
  | .load t => (s.list.step (.load t)).map fun list => { s with list := list }
  | .push t => (s.list.step (.push t)).map fun list => { s with list := list }
  | .retry t => (s.list.step (.retry t)).map fun list => { s with list := list }
  | .pool e => (s.pool.replenish s.dir e).map fun r => { s with pool := r.1, dir := r.2 }
  | .query t q => match s.reading t with
    | .idle =>
      let reading : TableWalk := match q with
        | .get key => .getting key s.list.head
        | .scan prefixKey acc => .scanning prefixKey [] [] s.list.head (acc, false)
      some { s with reading := Function.update s.reading t reading }
    | _ => none
  | .visit t => (s.visit (s.reading t)).map fun reading => { s with reading := Function.update s.reading t reading }
  | .ret t => match s.reading t with
    | .answered _ => some { s with reading := Function.update s.reading t .idle }
    | _ => none

/-- The index a thread builds for the records it has written, and the stream it leaves. -/
def written (s : SharedTables) (fault : Option (Nat × Nat)) (m : Memtable) (id : Nat) : OStream × L0Index :=
  let record := writeRecords fault (OStream.opened (s.dir[fileName id]?.getD [])) m.data
  (record.1, L0Index.build (fileName id) record.2)

/-- The steps, with what each one needs. -/
inductive Step (s : SharedTables) : TableEvent → SharedTables → Prop
  | acquired {t : Tid} {m : Memtable} {id : Nat} {pool : FilePool} (good : Bool) (entries : m.empty = false)
      (free : s.writing t = none) (idle : s.list.pushing t = .idle) (front : s.pool.acquire = some (id, pool)) :
      Step s (.acquire t m good)
        { s with pool := pool, writing := if good then Function.update s.writing t (some (m, id)) else s.writing }
  | wrote {t : Tid} {m : Memtable} {id : Nat} {list : PushList Tid L0Index} (fault : Option (Nat × Nat))
      (held : s.writing t = some (m, id)) (linked : s.list.step (.new t (s.written fault m id).2) = some list) :
      Step s (.write t fault)
        { s with dir := s.dir.insert (fileName id) (s.written fault m id).1.content
                 list := list
                 writing := Function.update s.writing t none }
  | linked {event : TableEvent} {e : PushEvent Tid L0Index} {list : PushList Tid L0Index}
      (which : ∃ t, event = .load t ∧ e = .load t ∨ event = .push t ∧ e = .push t ∨ event = .retry t ∧ e = .retry t)
      (linked : s.list.step e = some list) : Step s event { s with list := list }
  | pooled {event : PoolEvent} {pool : FilePool} {dir : Directory}
      (replenished : s.pool.replenish s.dir event = some (pool, dir)) :
        Step s (.pool event) { s with pool := pool, dir := dir }
  | got {t : Tid} {key : Key} (idle : s.reading t = .idle) :
      Step s (.query t (.get key)) { s with reading := Function.update s.reading t (.getting key s.list.head) }
  | scanned {t : Tid} {prefixKey : Key} {acc : Results × DeletedKeys} (idle : s.reading t = .idle) :
      Step s (.query t (.scan prefixKey acc))
        { s with reading := Function.update s.reading t (.scanning prefixKey [] [] s.list.head (acc, false)) }
  | visited {t : Tid} {reading : TableWalk} (next : s.visit (s.reading t) = some reading) :
      Step s (.visit t) { s with reading := Function.update s.reading t reading }
  | returned {t : Tid} {answer : Answer} (done : s.reading t = .answered answer) :
      Step s (.ret t) { s with reading := Function.update s.reading t .idle }

variable {s s' : SharedTables} {e : TableEvent}

theorem step_cases (taken : s.step e = some s') : Step s e s' := by
  cases e with
  | acquire t m good =>
    simp only [step] at taken
    split at taken
    next ready =>
      obtain ⟨⟨id, pool⟩, front, rfl⟩ := Option.map_eq_some_iff.mp taken
      exact .acquired good ready.1 ready.2.1 ready.2.2 front
    next => cases taken
  | write t fault =>
    simp only [step] at taken
    split at taken
    next m id held =>
      obtain ⟨list, linked, rfl⟩ := Option.map_eq_some_iff.mp taken
      exact .wrote fault held linked
    next => cases taken
  | load t =>
    obtain ⟨list, linked, rfl⟩ := Option.map_eq_some_iff.mp taken
    exact .linked ⟨t, .inl ⟨rfl, rfl⟩⟩ linked
  | push t =>
    obtain ⟨list, linked, rfl⟩ := Option.map_eq_some_iff.mp taken
    exact .linked ⟨t, .inr (.inl ⟨rfl, rfl⟩)⟩ linked
  | retry t =>
    obtain ⟨list, linked, rfl⟩ := Option.map_eq_some_iff.mp taken
    exact .linked ⟨t, .inr (.inr ⟨rfl, rfl⟩)⟩ linked
  | pool event =>
    obtain ⟨⟨pool, dir⟩, replenished, rfl⟩ := Option.map_eq_some_iff.mp taken
    exact .pooled replenished
  | query t q =>
    simp only [step] at taken
    split at taken
    next idle =>
      cases q with
      | get key =>
        cases taken
        exact .got idle
      | scan prefixKey acc =>
        cases taken
        exact .scanned idle
    next => cases taken
  | visit t =>
    obtain ⟨reading, next, rfl⟩ := Option.map_eq_some_iff.mp taken
    exact .visited next
  | ret t =>
    simp only [step] at taken
    split at taken
    next answer done =>
      cases taken
      exact .returned done
    next => cases taken

/-- A file that no thread has written yet: in the pool, or acquired by a thread. -/
def Awaiting (s : SharedTables) (id : Nat) : Prop := id ∈ s.pool.ready ∨ ∃ t m, s.writing t = some (m, id)

/-- The list is a chain, and the files of its nodes are none of those that are still to be written. -/
structure Inv (s : SharedTables) (chain : List (Nat × L0Index)) : Prop where
  sound : s.list.Sound chain
  counter : s.pool.nextId < 2 ^ 64
  ready : s.pool.ready.Nodup
  below : ∀ id, s.Awaiting id → id < s.pool.nextId
  held : ∀ t m id, s.writing t = some (m, id) → id ∉ s.pool.ready
  apart : ∀ t t' m m' id, s.writing t = some (m, id) → s.writing t' = some (m', id) → t = t'
  settled : ∀ node ∈ s.list.nodes, ∀ id < 2 ^ 64, node.1.path = fileName id → id < s.pool.nextId ∧ ¬ s.Awaiting id

/-- The files of the nodes stay as they are. -/
def KeepsFiles (s s' : SharedTables) : Prop := ∀ node ∈ s.list.nodes, s'.dir[node.1.path]? = s.dir[node.1.path]?

/-- A step that leaves the list alone, and of the files awaiting makes at most the next one. -/
theorem Inv.awaited {chain : List (Nat × L0Index)} (inv : Inv s chain) (list : s'.list = s.list)
    (counter : s'.pool.nextId < 2 ^ 64) (more : s.pool.nextId ≤ s'.pool.nextId) (ready : s'.pool.ready.Nodup)
    (held : ∀ t m id, s'.writing t = some (m, id) → id ∉ s'.pool.ready)
    (apart : ∀ t t' m m' id, s'.writing t = some (m, id) → s'.writing t' = some (m', id) → t = t')
    (only : ∀ id, s'.Awaiting id → s.Awaiting id ∨ id = s.pool.nextId ∧ s.pool.nextId < s'.pool.nextId) :
    Inv s' chain := by
  refine ⟨list ▸ inv.sound, counter, ready, fun id awaiting => ?_, held, apart, fun node member id small here => ?_⟩
  · rcases only id awaiting with before | ⟨rfl, next⟩
    · exact (inv.below id before).trans_le more
    · exact next
  · rw [list] at member
    obtain ⟨below, written⟩ := inv.settled node member id small here
    refine ⟨below.trans_le more, fun awaiting => ?_⟩
    rcases only id awaiting with before | ⟨rfl, -⟩
    · exact written before
    · exact lt_irrefl _ below

/-- The table a step publishes. -/
def pushes (s : SharedTables) : TableEvent → Option L0Index
  | .push t => s.list.pushed (.push t)
  | _ => none

/-- What a step leaves of the list and of the files that the list leads to. -/
structure Follows (s s' : SharedTables) (e : TableEvent) (chain chain' : List (Nat × L0Index)) : Prop where
  inv : s'.Inv chain'
  behind : chain <:+ chain'
  tables : chain'.map Prod.snd = (s.pushes e).toList ++ chain.map Prod.snd
  nodes : ∀ node ∈ chain, s'.list.nodes[node.1]? = s.list.nodes[node.1]?
  files : KeepsFiles s s'

variable {chain : List (Nat × L0Index)}

theorem Follows.of_same (inv' : s'.Inv chain) (silent : s.pushes e = none) (list : s'.list = s.list)
    (files : KeepsFiles s s') :
    Follows s s' e chain chain :=
  ⟨inv', List.suffix_refl _, by simp [silent], fun _ _ => by rw [list], files⟩

theorem update_eq_some {t u : Tid} {m : Memtable} {id : Nat} {entry : Option (Memtable × Nat)}
    (now : Function.update s.writing t entry u = some (m, id)) :
    u = t ∧ entry = some (m, id) ∨ u ≠ t ∧ s.writing u = some (m, id) := by
  by_cases here : u = t
  · subst here
    rw [Function.update_self] at now
    exact .inl ⟨rfl, now⟩
  · rw [Function.update_of_ne here] at now
    exact .inr ⟨here, now⟩

theorem Inv.acquired (inv : Inv s chain) {t : Tid} {m : Memtable} {id : Nat} {pool : FilePool} (good : Bool)
    (front : s.pool.acquire = some (id, pool)) :
    Inv { s with pool := pool, writing := if good then Function.update s.writing t (some (m, id)) else s.writing }
      chain := by
  obtain ⟨ready, nextId, -⟩ := FilePool.ready_of_acquire front
  have distinct := inv.ready
  rw [ready, List.nodup_cons] at distinct
  have first : id ∈ s.pool.ready := by simp [ready]
  have writes : ∀ u m' other,
      (if good then Function.update s.writing t (some (m, id)) else s.writing) u = some (m', other) →
      u = t ∧ other = id ∨ s.writing u = some (m', other) := by
    intro u m' other now
    cases good with
    | false => exact .inr now
    | true =>
      rcases update_eq_some now with ⟨rfl, fresh⟩ | ⟨-, before⟩
      · cases fresh
        exact .inl ⟨rfl, rfl⟩
      · exact .inr before
  refine inv.awaited rfl (nextId ▸ inv.counter) (by rw [nextId]) distinct.2 (fun u m' other now inside => ?_)
    (fun u u' m' m'' other now now' => ?_) fun other awaiting => .inl ?_
  · rcases writes u m' other now with ⟨-, rfl⟩ | before
    · exact distinct.1 inside
    · exact inv.held u m' other before (ready ▸ List.mem_cons_of_mem _ inside)
  · rcases writes u m' other now with ⟨rfl, rfl⟩ | before <;> rcases writes u' m'' _ now' with ⟨rfl, same⟩ | before'
    · rfl
    · exact absurd first (inv.held u' m'' _ before')
    · exact absurd (same ▸ first) (inv.held u m' _ before)
    · exact inv.apart u u' m' m'' other before before'
  · rcases awaiting with inside | ⟨u, m', now⟩
    · exact .inl (ready ▸ List.mem_cons_of_mem _ inside)
    · rcases writes u m' other now with ⟨-, rfl⟩ | before
      · exact .inl first
      · exact .inr ⟨u, m', before⟩

theorem Inv.wrote (inv : Inv s chain) {t : Tid} {m : Memtable} {id : Nat} {content : Bytes} {index : L0Index}
    (fault : Option (Nat × Nat)) {list : PushList Tid L0Index} (held : s.writing t = some (m, id))
    (path : index.path = fileName id) (linked : s.list.step (.new t index) = some list) :
    Follows s { s with dir := s.dir.insert (fileName id) content
                       list := list
                       writing := Function.update s.writing t none }
      (.write t fault) chain chain := by
  have awaiting : s.Awaiting id := .inr ⟨t, m, held⟩
  have small : id < 2 ^ 64 := (inv.below id awaiting).trans inv.counter
  have writes : ∀ u m' other, Function.update s.writing t none u = some (m', other) →
    u ≠ t ∧ s.writing u = some (m', other) := by
    intro u m' other now
    rcases update_eq_some now with ⟨-, none'⟩ | before
    · cases none'
    · exact before
  have unlisted : ∀ node ∈ s.list.nodes, node.1.path ≠ fileName id := fun node member here =>
    (inv.settled node member id small here).2 awaiting
  have only : ∀ other, (other ∈ s.pool.ready ∨ ∃ u m', Function.update s.writing t none u = some (m', other)) →
      s.Awaiting other := by
    rintro other (inside | ⟨u, m', now⟩)
    · exact .inl inside
    · exact .inr ⟨u, m', (writes u m' other now).2⟩
  obtain ⟨chain', sound, behind, tables, nodes⟩ := inv.sound.step linked
  obtain rfl : chain = chain' :=
    behind.eq_of_length (by simpa [PushList.pushed] using (congrArg List.length tables).symm)
  refine ⟨⟨sound, inv.counter, inv.ready, fun other now => inv.below other (only other now),
    fun u m' other now => inv.held u m' other (writes u m' other now).2,
    fun u u' m' m'' other now now' =>
    inv.apart u u' m' m'' other (writes u m' other now).2 (writes u' m'' other now').2,
    fun node member other small' here => ?_⟩, behind, tables, nodes, fun node member => ?_⟩
  · rcases PushList.value_of_step linked member with ⟨before, listed, same⟩ | ⟨u, fresh⟩
    · obtain ⟨below, written⟩ := inv.settled before listed other small' (by rw [same, here])
      exact ⟨below, fun now => written (only other now)⟩
    · -- the new node: its file was this thread's, and no other's
      have own : node.1 = index := by
        cases fresh
        rfl
      obtain rfl := fileName_injective (path.symm.trans (own ▸ here))
      refine ⟨inv.below id awaiting, ?_⟩
      rintro (inside | ⟨u', m', now⟩)
      · exact inv.held t m id held inside
      · obtain ⟨other, theirs⟩ := writes u' m' id now
        exact other (inv.apart u' t m' m id theirs held)
  · rw [OrderedMap.getElem?_insert, if_neg (unlisted node member).symm]

theorem Inv.pooled (inv : Inv s chain) {event : PoolEvent} {pool : FilePool} {dir : Directory}
    (replenished : s.pool.replenish s.dir event = some (pool, dir)) :
    Follows s { s with pool := pool, dir := dir } (.pool event) chain chain := by
  have unlisted : ∀ node ∈ s.list.nodes, node.1.path ≠ fileName s.pool.nextId := fun node member here =>
    lt_irrefl _ (inv.settled node member _ inv.counter here).1
  have created (bound : s.pool.nextId + 1 < 2 ^ 64) (nextId : pool.nextId = s.pool.nextId + 1)
      (ready : pool.ready = s.pool.ready ++ [s.pool.nextId] ∨ pool.ready = s.pool.ready)
      (others : ∀ name, name ≠ fileName s.pool.nextId → dir[name]? = s.dir[name]?) :
      Follows s { s with pool := pool, dir := dir } (.pool event) chain chain := by
    have new : s.pool.nextId ∉ s.pool.ready := fun inside => lt_irrefl _ (inv.below _ (.inl inside))
    have only : ∀ id, id ∈ pool.ready → id ∈ s.pool.ready ∨ id = s.pool.nextId := by
      intro id member
      rcases ready with grown | same
      · simpa [grown] using member
      · exact .inl (same ▸ member)
    refine .of_same (inv.awaited rfl (nextId ▸ bound) (by simp [nextId]) ?_ (fun t m id now inside => ?_) inv.apart
      fun id awaiting => ?_) rfl rfl fun node member => others _ (unlisted node member)
    · rcases ready with grown | same
      · rw [grown]
        exact inv.ready.append (List.nodup_singleton _) (by simpa using new)
      · exact same ▸ inv.ready
    · rcases only id inside with before | rfl
      · exact inv.held t m id now before
      · exact lt_irrefl _ (inv.below _ (.inr ⟨t, m, now⟩))
    · rcases awaiting with inside | writing
      · rcases only id inside with before | rfl
        · exact .inl (.inl before)
        · exact .inr ⟨rfl, by simp [nextId]⟩
      · exact .inl (.inr writing)
  cases (FilePool.replenish_cases replenished).1 with
  | idle ready nextId same =>
    subst same
    refine .of_same (inv.awaited rfl (nextId ▸ inv.counter) (by rw [nextId]) (ready ▸ inv.ready)
      (fun t m id now => ready ▸ inv.held t m id now) inv.apart fun id awaiting => .inl ?_) rfl rfl fun _ _ => rfl
    rcases awaiting with inside | writing
    · exact .inl (ready ▸ inside)
    · exact .inr writing
  | created ready nextId bound others => exact created bound nextId (.inl ready) others
  | failed _ _ ready nextId bound others => exact created bound nextId (.inr ready) others

theorem Inv.linked (inv : Inv s chain) {event : TableEvent} {e : PushEvent Tid L0Index} {list : PushList Tid L0Index}
    (which : ∃ t, event = .load t ∧ e = .load t ∨ event = .push t ∧ e = .push t ∨ event = .retry t ∧ e = .retry t)
    (linked : s.list.step e = some list) : ∃ chain', Follows s { s with list := list } event chain chain' := by
  obtain ⟨chain', sound, behind, tables, nodes⟩ := inv.sound.step linked
  have published : s.pushes event = s.list.pushed e := by
    obtain ⟨t, ⟨rfl, rfl⟩ | ⟨rfl, rfl⟩ | ⟨rfl, rfl⟩⟩ := which <;> rfl
  refine ⟨chain', ⟨sound, inv.counter, inv.ready, inv.below, inv.held, inv.apart, fun node member => ?_⟩, behind,
    published ▸ tables, nodes, fun _ _ => rfl⟩
  rcases PushList.value_of_step linked member with ⟨before, listed, same⟩ | ⟨t, fresh⟩
  · exact same ▸ inv.settled before listed
  · obtain ⟨u, ⟨-, rfl⟩ | ⟨-, rfl⟩ | ⟨-, rfl⟩⟩ := which <;> cases fresh

theorem Inv.reads (inv : Inv s chain) (reading : Tid → TableWalk) : Inv { s with reading := reading } chain :=
  ⟨inv.sound, inv.counter, inv.ready, inv.below, inv.held, inv.apart, inv.settled⟩

/-- Each step keeps the invariant, and all that a reader on its way through the list still needs. -/
theorem Inv.step (inv : Inv s chain) (taken : s.step e = some s') : ∃ chain', Follows s s' e chain chain' := by
  cases step_cases taken with
  | acquired good _ _ _ front => exact ⟨chain, .of_same (inv.acquired good front) rfl rfl fun _ _ => rfl⟩
  | wrote fault held linked => exact ⟨chain, inv.wrote fault held rfl linked⟩
  | linked which linked => exact inv.linked which linked
  | pooled replenished => exact ⟨chain, inv.pooled replenished⟩
  | got | scanned | visited | returned => exact ⟨chain, .of_same (inv.reads _) rfl rfl fun _ _ => rfl⟩

theorem Inv.start {entries : List (FileName × Bytes)} (room : maxId (foundFiles entries) + 1 < 2 ^ 64)
    (poolSize preAllocBytes : Nat) (dir : Directory) :
    ∃ chain, Inv (start poolSize preAllocBytes dir entries) chain ∧ chain.map Prod.snd = (recoverState entries).1 := by
  obtain ⟨chain, sound, tables⟩ := PushList.Sound.start (θ := Tid) (recoverState entries).1
  have fresh := State.Fresh.openStore room ⟨0, 0, poolSize, preAllocBytes⟩ dir
  have nothing : ∀ id, ¬ Awaiting (SharedTables.start poolSize preAllocBytes dir entries) id := by
    rintro id (inside | ⟨t, m, now⟩)
    · cases inside
    · cases now
  refine ⟨chain, ⟨sound, fresh.counter, .nil, fun id now => absurd now (nothing id), fun t m id now => (by cases now),
    fun t t' m m' id now => (by cases now), fun node member id small here => ⟨?_, nothing id⟩⟩, tables⟩
  exact (fresh.tables node.1 (PushList.ofValues_value _ node member) id small here).1

variable {poolSize preAllocBytes : Nat} {dir : Directory} {entries : List (FileName × Bytes)} {trace : List TableEvent}
  {ok : SharedTables → TableEvent → Prop}

theorem Inv.of_run (room : maxId (foundFiles entries) + 1 < 2 ^ 64)
    (run : Run (Allowed SharedTables.step ok) (SharedTables.start poolSize preAllocBytes dir entries) trace s) :
    ∃ chain, Inv s chain := by
  obtain ⟨chain, inv, -⟩ := Inv.start room poolSize preAllocBytes dir
  refine run.invariant (P := fun _ s => ∃ chain, Inv s chain) ⟨chain, inv⟩ ?_
  rintro _ s e s' - ⟨chain, inv⟩ ⟨-, taken⟩
  obtain ⟨chain', follows⟩ := inv.step taken
  exact ⟨chain', follows.inv⟩

end SharedTables

end LSMIO
