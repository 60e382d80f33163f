import LSMIO.SharedTables

namespace LSMIO

namespace SSTableManager

variable {read read' : Reader} {tables : List L0Index}

theorem get_congr (same : ∀ index ∈ tables, read' index.path = read index.path) (key : Key) :
    get read' tables key = get read tables key := by
  induction tables with
  | nil => rfl
  | cons index tables ih =>
    have behind := ih fun index member => same index (List.mem_cons_of_mem _ member)
    rw [get_cons, get_cons, behind, lookup, lookup, same index (List.mem_cons_self ..)]

theorem scanOffset_congr {path : FileName} (same : read' path = read path) :
    scanOffset read' path = scanOffset read path := by
  funext acc entry
  simp only [scanOffset, same]

theorem scanTables_congr (same : ∀ index ∈ tables, read' index.path = read index.path) (prefixKey : Key)
    (acc : (Results × DeletedKeys) × Bool) :
    tables.foldl (scanTable read' prefixKey) acc = tables.foldl (scanTable read prefixKey) acc := by
  induction tables generalizing acc with
  | nil => rfl
  | cons index tables ih =>
    have here : scanTable read' prefixKey acc index = scanTable read prefixKey acc index := by
      rw [scanTable, scanTable, scanOffset_congr (same index (List.mem_cons_self ..))]
    rw [List.foldl_cons, List.foldl_cons, here, ih fun index member => same index (List.mem_cons_of_mem _ member)]

end SSTableManager

/-- Whether a thread has its answer. -/
def TableWalk.isAnswered : TableWalk → Bool
  | .answered _ => true
  | _ => false

namespace SharedTables

variable {s s' : SharedTables} {e : TableEvent} {chain chain' : List (Nat × L0Index)}

/-- A thread is on its way to an answer: what it has, with what the nodes before it would give, is that. -/
def Meets (s : SharedTables) (chain : List (Nat × L0Index)) (answer : Answer) : TableWalk → Prop
  | .idle => True
  | .answered found => found = answer
  | .getting key curr => ∃ behind, behind <:+ chain ∧ Linked s.list.nodes curr behind ∧
      .value (SSTableManager.get (readValueAt s.dir) (behind.map Prod.snd) key) = answer
  | .scanning prefixKey path entries curr acc => ∃ behind, behind <:+ chain ∧ Linked s.list.nodes curr behind ∧
      (entries = [] ∨ ∃ index ∈ chain.map Prod.snd, index.path = path) ∧
      .results ((behind.map Prod.snd).foldl (SSTableManager.scanTable (readValueAt s.dir) prefixKey)
        (entries.foldl (SSTableManager.scanOffset (readValueAt s.dir) path) acc)) = answer

/-- The files of the tables read as before. -/
theorem Follows.reader (follows : Follows s s' e chain chain') (inv : Inv s chain) {index : L0Index}
    (listed : index ∈ chain.map Prod.snd) : readValueAt s'.dir index.path = readValueAt s.dir index.path := by
  obtain ⟨node, member, rfl⟩ := inv.sound.linked.mem_nodes index listed
  funext offset key
  rw [readValueAt, readValueAt, follows.files node member]

/-- No step of another thread moves a reader from its answer. -/
theorem Meets.frame {answer : Answer} {reading : TableWalk} (meets : s.Meets chain answer reading) (inv : Inv s chain)
    (follows : Follows s s' e chain chain') : s'.Meets chain' answer reading := by
  cases reading with
  | idle => trivial
  | answered found => exact meets
  | getting key curr =>
    obtain ⟨behind, within, linked, found⟩ := meets
    refine ⟨behind, within.trans follows.behind, linked.frame fun node member =>
      follows.nodes node (within.subset member), ?_⟩
    rw [SSTableManager.get_congr fun index member => follows.reader inv ((within.map Prod.snd).subset member), found]
  | scanning prefixKey path entries curr acc =>
    obtain ⟨behind, within, linked, listed, found⟩ := meets
    have current : entries.foldl (SSTableManager.scanOffset (readValueAt s'.dir) path) acc =
        entries.foldl (SSTableManager.scanOffset (readValueAt s.dir) path) acc := by
      rcases listed with rfl | ⟨index, listed, rfl⟩
      · rfl
      · rw [SSTableManager.scanOffset_congr (follows.reader inv listed)]
    refine ⟨behind, within.trans follows.behind, linked.frame fun node member =>
      follows.nodes node (within.subset member), ?_, ?_⟩
    · exact listed.imp_right fun ⟨index, member, here⟩ => ⟨index, (follows.behind.map Prod.snd).subset member, here⟩
    · rw [SSTableManager.scanTables_congr fun index member =>
        follows.reader inv ((within.map Prod.snd).subset member), current, found]

/-- A node further on, or an entry: the answer in sight stays the same. -/
theorem Meets.visit {answer : Answer} {reading reading' : TableWalk} (meets : s.Meets chain answer reading)
    (next : s.visit reading = some reading') : s.Meets chain answer reading' := by
  cases reading with
  | idle => cases next
  | answered => cases next
  | getting key curr =>
    obtain ⟨behind, within, linked, found⟩ := meets
    cases linked with
    | nil =>
      cases next
      exact found
    | @cons address index follow rest here linked =>
      simp only [SharedTables.visit, here, Option.map_some, Option.some.injEq] at next
      rw [List.map_cons, SSTableManager.get_cons] at found
      cases hit : SSTableManager.lookup (readValueAt s.dir) index key with
      | some value =>
        simp only [hit] at next
        subst next
        rw [hit, Option.some_or] at found
        exact found
      | none =>
        simp only [hit] at next
        subst next
        rw [hit, Option.none_or] at found
        exact ⟨rest, (List.suffix_cons _ _).trans within, linked, found⟩
  | scanning prefixKey path entries curr acc =>
    obtain ⟨behind, within, linked, listed, found⟩ := meets
    cases entries with
    | cons entry entries =>
      cases next
      exact ⟨behind, within, linked, listed.imp_left (fun nothing => by cases nothing), found⟩
    | nil =>
      cases linked with
      | nil =>
        cases next
        exact found
      | @cons address index follow rest here linked =>
        simp only [SharedTables.visit, here, Option.map_some, Option.some.injEq] at next
        subst next
        have member : index ∈ chain.map Prod.snd := List.mem_map_of_mem (within.subset (List.mem_cons_self ..))
        exact ⟨rest, (List.suffix_cons _ _).trans within, linked, .inr ⟨index, member, rfl⟩, found⟩

/-- Where a reader stands after a step. -/
theorem reading_step (taken : s.step e = some s') (t : Tid) :
    s'.reading t = s.reading t ∨ s.visit (s.reading t) = some (s'.reading t) ∨ s'.reading t = .idle ∨
      ∃ q, e = .query t q := by
  have own (u : Tid) (reading : TableWalk) : Function.update s.reading u reading t = s.reading t ∨
      t = u ∧ Function.update s.reading u reading t = reading := by
    by_cases here : t = u
    · subst here
      exact .inr ⟨rfl, Function.update_self ..⟩
    · exact .inl (Function.update_of_ne here ..)
  cases step_cases taken with
  | acquired | wrote | linked | pooled => exact .inl rfl
  | @got u key =>
    rcases own u (.getting key s.list.head) with same | ⟨rfl, -⟩
    · exact .inl same
    · exact .inr (.inr (.inr ⟨_, rfl⟩))
  | @scanned u prefixKey acc =>
    rcases own u (.scanning prefixKey [] [] s.list.head (acc, false)) with same | ⟨rfl, -⟩
    · exact .inl same
    · exact .inr (.inr (.inr ⟨_, rfl⟩))
  | @visited u reading next =>
    rcases own u reading with same | ⟨rfl, moved⟩
    · exact .inl same
    · exact .inr (.inl (next.trans (congrArg some moved.symm)))
  | @returned u _ _ =>
    rcases own u .idle with same | ⟨-, moved⟩
    · exact .inl same
    · exact .inr (.inr (.inl moved))

/-- A new reader has the whole list before it. -/
theorem Inv.asked (inv : Inv s chain) {t : Tid} {q : Query} (asked : s.step (.query t q) = some s') :
    Inv s' chain ∧ s'.Meets chain (q.answer (readValueAt s.dir) s.list.values) (s'.reading t) := by
  cases step_cases asked with
  | linked which => obtain ⟨u, ⟨other, -⟩ | ⟨other, -⟩ | ⟨other, -⟩⟩ := which <;> cases other
  | got =>
    refine ⟨inv.reads _, ?_⟩
    simp only [Function.update_self]
    exact ⟨chain, List.suffix_refl _, inv.sound.linked, by rw [inv.sound.values_eq]; rfl⟩
  | scanned =>
    refine ⟨inv.reads _, ?_⟩
    simp only [Function.update_self]
    exact ⟨chain, List.suffix_refl _, inv.sound.linked, .inl rfl, by rw [inv.sound.values_eq]; rfl⟩

variable {poolSize preAllocBytes : Nat} {dir : Directory} {entries : List (FileName × Bytes)}
    {trace later : List TableEvent}

/-- A `get` or a `scan` walks the list node by node and reads file after file, while other threads write
and publish tables. Its answer is that of the list and of the files as they were when it loaded the head. -/
theorem query_atomic (room : maxId (foundFiles entries) + 1 < 2 ^ 64)
    (run : Run (Allowed SharedTables.step fun _ _ => True)
      (SharedTables.start poolSize preAllocBytes dir entries) trace s)
    {t : Tid} {q : Query} (asked : s.step (.query t q) = some s')
    {s'' : SharedTables} (rest : Run (Allowed SharedTables.step fun _ e => e.asker ≠ some t) s' later s'')
    {answer : Answer} (done : s''.reading t = .answered answer) :
    answer = q.answer (readValueAt s.dir) s.list.values := by
  obtain ⟨chain, inv⟩ := Inv.of_run room run
  have reached := rest.invariant
    (P := fun _ now => ∃ chain, Inv now chain ∧
      now.Meets chain (q.answer (readValueAt s.dir) s.list.values) (now.reading t))
    ⟨chain, inv.asked asked⟩ (by
      rintro _ now e next - ⟨chain, inv, meets⟩ ⟨other, taken⟩
      obtain ⟨chain', follows⟩ := inv.step taken
      refine ⟨chain', follows.inv, ?_⟩
      rcases reading_step taken t with same | next | idle | ⟨q', mine⟩
      · exact same ▸ meets.frame inv follows
      · exact (meets.visit next).frame inv follows
      · rw [idle]
        trivial
      · subst mine
        exact absurd rfl other)
  obtain ⟨_, -, meets⟩ := reached
  rw [done] at meets
  exact meets

/-- A thread searches the list while the table that another has written is pushed, with one failed exchange, in
front of it. -/
theorem query_atomic_between : ∃ s s'' : SharedTables, s.list.values.length = 1 ∧ s''.list.values.length = 2 ∧
    (∃ answer, s''.reading 0 = .answered answer ∧
      answer = (Query.get [1]).answer (readValueAt s.dir) s.list.values) := by
  obtain ⟨s, run, one, after⟩ : ∃ s, Run (Allowed SharedTables.step fun _ _ => True) (start 2 0 ∅ [])
      [.pool .check, .pool (.create true true), .pool .insert, .pool .check, .pool (.create true true), .pool .insert,
        .acquire 1 (Memtable.new.add [1] [5]) true, .acquire 2 (Memtable.new.add [1] [6]) true, .write 1 none,
        .write 2 none, .load 1, .load 2, .push 1] s ∧ s.list.values.length = 1 ∧
      ((s.step (.query 0 (.get [1]))).any fun s' => ([.retry 2, .push 2, .visit 0] : List TableEvent).foldlM
        (guarded SharedTables.step fun _ e => e.asker ≠ some 0) s' |>.any fun s'' => s''.list.values.length = 2 ∧
          (s''.reading 0).isAnswered = true) = true := Run.exists_of_any (by decide +kernel)
  cases asked : s.step (.query 0 (.get [1])) with
  | none => simp [asked] at after
  | some s' =>
    rw [asked, Option.any_some] at after
    obtain ⟨s'', rest, two, answered⟩ := Run.exists_of_any after
    cases done : s''.reading 0 with
    | answered answer => exact ⟨s, s'', one, two, answer, done, query_atomic (by decide +kernel) run asked rest done⟩
    | idle | getting | scanning => simp [done, TableWalk.isAnswered] at answered

end SharedTables

end LSMIO
