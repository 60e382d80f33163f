import LSMIO.CrashRecovery
import LSMIO.OwnFiles
import LSMIO.WriteBarrier

namespace LSMIO

/-- The listing of a directory, without the files of an earlier one, lists its new files. -/
theorem newFiles_listing {base dir : Directory} {listed : List (FileName × Bytes)} (listing : listed.Perm dir.toList) :
    (listed.filter fun entry => base[entry.1]? = none).Perm (newFiles base dir).toList := by
  refine (List.perm_ext_iff_of_nodup ((nodup_listing listing).filter _) (nodup_listing (.refl _))).mpr fun entry => ?_
  obtain ⟨name, content⟩ := entry
  rw [List.mem_filter, mem_listing listing, mem_listing (.refl _), getElem?_newFiles]
  by_cases absent : base[name]? = none
  · simp [absent]
  · simp [absent]

/-- A file that a flush leaves: its id, the entries of the memtable, and how many bytes of their records it holds. -/
abbrev CutFile := Nat × List (Key × Value) × Nat

namespace CutFile

def content (f : CutFile) : Bytes := (encodeRecords f.2.1).take f.2.2

end CutFile

namespace State

/-- What a crash leaves of the directory: the files as they are, or, of the file a flush is writing,
the first bytes of its records. -/
inductive Crashed (s : State) : Directory → Prop
  | whole : Crashed s s.dir
  | torn {m : Memtable} {id : Nat} (acquired : s.hand = .acquired m id) (cut : Nat) :
      Crashed s (s.dir.insert (fileName id) ((encodeRecords m.data).take cut))

variable {first s s' : State} {trace later : List Event} {flushed flushed' : Flushed}

/-- No step puts an entry back among those in no table. -/
theorem Effect.pending_suffix {e : Event} (effect : Effect s e s') : s'.pending <:+ s.pending ++ e.mutation.toList := by
  cases effect with
  | memory done => exact done.pending ▸ List.suffix_refl _
  | acquired silent done =>
    rw [silent, pending, pending, done.hand, done.taken, done.memory.memData]
    exact (List.append_nil _).symm ▸ List.suffix_refl _
  | written silent done =>
    rw [silent, pending, pending, done.hand, done.acquired, done.memory.memData]
    exact (List.append_nil _).symm ▸ List.suffix_refl _
  | published silent done =>
    rw [silent, pending, pending, done.hand, done.memory.memData, Option.toList_none, List.append_nil]
    exact List.suffix_append _ _
  | pooled same done =>
    rw [same, pending, pending, done.hand, done.memory.memData]
    exact (List.append_nil _).symm ▸ List.suffix_refl _

theorem pending_suffix_of_run {cfg : Config} {ok : State → Event → Prop} (intact : ∀ s e, ok s e → e.intact = true)
    (run : Run (Allowed (step cfg) ok) s later s') : s'.pending <:+ s.pending ++ mutations later := by
  refine run.invariant (P := fun later s' => s'.pending <:+ s.pending ++ mutations later) (by simp) ?_
  rintro later middle e s' - before ⟨allowed, taken⟩
  have after := (step_effect taken (intact middle e allowed)).pending_suffix
  rw [mutations_append, mutations_singleton, ← List.append_assoc]
  exact after.trans ((List.suffix_append_inj_of_length_eq rfl).mpr ⟨before, rfl⟩)

/-- What is flushed at one moment is flushed first at every later one. -/
theorem Inv.log_prefix {first' : State} (inv : Inv first trace s flushed)
    (inv' : Inv first' (trace ++ later) s' flushed') (pending : s'.pending <:+ s.pending ++ mutations later) :
    flushed.log <+: flushed'.log := by
  have before := inv.log
  have after := inv'.log
  rw [mutations_append, before, List.append_assoc] at after
  have length := congrArg List.length after
  have bound := pending.length_le
  simp only [List.length_append] at length bound
  refine List.prefix_of_prefix_length_le (List.prefix_append _ (s.pending ++ mutations later)) ?_ (by omega)
  exact after ▸ List.prefix_append _ _

section Crash

variable {cfg : Config} {dir dir' : Directory} {listed listed' : List (FileName × Bytes)}

/-- The files a crash leaves besides those found at the opening: the tables flushed, whole and oldest
first, what there is of the one in the flush's hands, and the empty files of the pool. -/
def afterCrash (flushed : Flushed) (last : Option CutFile) (ready : List Nat) : Files :=
  (flushed.reverse.map fun table => (table.1, encodeRecords table.2)) ++
    (last.map fun f => (f.1, CutFile.content f)).toList ++ ready.map fun id => (id, [])

theorem files_padded (s : State) (flushed : Flushed) (last : Option CutFile)
    (hand : (s.hand.padded 0).files = (last.map fun f => (f.1, CutFile.content f)).toList) :
    (s.padded 0 [] flushed).files = afterCrash flushed last s.pool.ready := by
  rw [padded, List.nil_append, Padded.files_append, Padded.files_append, hand, afterCrash]
  simp [Padded.files, PaddedFile.content, PaddedFile.flushed, Function.comp_def]

theorem Session.afterCrash (session : Session 0 [] first (s.own dir) flushed)
    (inv : Inv first trace (s.own dir) flushed) (absent : ∀ id ∈ s.hand.ids, dir[fileName id]? = none)
    (crash : s.Crashed dir') :
    ∃ last : Option CutFile, (State.afterCrash flushed last s.pool.ready).Describes (newFiles dir dir') ∧
      (last.map (·.1)).toList = s.hand.ids ∧ ∀ f ∈ last, f.2.1 = s.hand.data := by
  have described := session.described
  cases crash with
  | whole =>
    cases hand : s.hand with
    | acquired m id =>
      refine ⟨some (id, m.data, 0), ?_, rfl, by simp [Hand.data]⟩
      rwa [files_padded _ _ (some (id, m.data, 0))
        (by simp [own, hand, Hand.padded, Padded.files, CutFile.content])] at described
    | written m id index =>
      refine ⟨some (id, m.data, (encodeRecords m.data).length), ?_, rfl, by simp [Hand.data]⟩
      rwa [files_padded _ _ (some (id, m.data, (encodeRecords m.data).length))
        (by simp [own, hand, Hand.padded, Padded.files, CutFile.content, PaddedFile.content,
          PaddedFile.flushed])] at described
    | idle | taken | finished =>
      refine ⟨none, ?_, rfl, by simp⟩
      rwa [files_padded _ _ none (by simp [own, hand, Hand.padded, Padded.files])] at described
  | @torn m id acquired cut =>
    refine ⟨some (id, m.data, cut), ?_, by rw [acquired]; rfl, by simp [acquired, Hand.data]⟩
    have free : dir[fileName id]? = none := absent id (by simp [acquired, Hand.ids])
    have others := session.others inv acquired
    rw [files_padded _ _ (some (id, m.data, 0))
      (by simp [own, acquired, Hand.padded, Padded.files, CutFile.content])] at described
    rw [newFiles_insert free]
    refine Files.Describes.update described (by simp) (fun file member => ?_) (fun name different => ?_) ?_
    · simp only [List.mem_append, List.mem_map] at member
      rcases member with ⟨table, inFlushed, rfl⟩ | ⟨other, inReady, rfl⟩
      · exact others (.flushed 0 table.1 table.2) (by
          simp only [List.nil_append, List.mem_append, List.mem_map]
          exact .inl ⟨table, inFlushed, rfl⟩)
      · exact others (.flushed 0 other []) (by
          simp only [List.nil_append, List.mem_append, List.mem_map]
          exact .inr ⟨other, inReady, rfl⟩)
    · rw [OrderedMap.getElem?_insert, if_neg different.symm]
      rfl
    · rw [OrderedMap.getElem?_insert, if_pos rfl]
      rfl

theorem afterCrash_ids (flushed : Flushed) (last : Option CutFile) (ready : List Nat) :
    (State.afterCrash flushed last ready).map (·.1) = flushed.ids ++ (last.map (·.1)).toList ++ ready := by
  cases last <;> simp [State.afterCrash, Flushed.ids, Function.comp_def]

/-- A crash touches no file but those of the pool. -/
theorem Confined.crashed {start : Nat} (confined : Confined dir start s) (crash : s.Crashed dir') :
    Confined dir start { s with dir := dir' } := by
  refine ⟨confined.counter, confined.waiting, fun name outside => ?_⟩
  cases crash with
  | whole => exact confined.others name outside
  | @torn m id acquired cut =>
    obtain ⟨above, below⟩ := confined.waiting id (by simp [awaiting, acquired])
    have different : fileName id ≠ name := fun same => outside id above below same.symm
    rw [OrderedMap.getElem?_insert, if_neg different]
    exact confined.others name outside

theorem get_openStore (cfg : Config) (dir : Directory) (listed : List (FileName × Bytes)) (key : Key) :
    (State.openStore cfg dir listed).get key = visible ((State.openStore cfg dir listed).sstableGet key) := by
  rw [get, memtableGet_eq]
  rfl

/-- What the files of a crash answer in front of those found before: the whole tables, and the whole
records of the last file but those of a key whose value is torn. -/
theorem get_afterCrash {last : Option CutFile} {ready : List Nat}
    (described : (State.afterCrash flushed last ready).Describes (newFiles dir dir'))
    (short : ∀ entry ∈ flushed.log, Short entry) (shortLast : ∀ f ∈ last, ∀ entry ∈ f.2.1, Short entry)
    (base : List L0Index) (key : Key) :
    ∃ front : List (Key × Value), (front = [] ∨ ∃ f ∈ last, front <+: f.2.1) ∧
      SSTableManager.get (readValueAt dir')
          (((State.afterCrash flushed last ready).map fun file => recoverIndex (fileName file.1) file.2).reverse ++
            base) key =
        (lastValue (flushed.log ++ front) key).or (SSTableManager.get (readValueAt dir') base key) := by
  have stored : ∀ file ∈ State.afterCrash flushed last ready, dir'[fileName file.1]? = some file.2 := by
    intro file member
    have here := described.getElem? member
    rw [getElem?_newFiles] at here
    split at here
    next => exact here
    next => cases here
  have storedReady : ∀ file ∈ ready.map fun id => (id, ([] : List (Key × Value))),
      dir'[fileName file.1]? = some (encodeRecords file.2) := by
    intro file member
    obtain ⟨id, inReady, rfl⟩ := List.mem_map.mp member
    exact stored (id, []) (List.mem_append_right _ (List.mem_map_of_mem inReady))
  have storedFlushed : ∀ table ∈ flushed.reverse, dir'[fileName table.1]? = some (encodeRecords table.2) :=
    fun table member => stored (table.1, encodeRecords table.2)
      (List.mem_append_left _ (List.mem_append_left _ (List.mem_map_of_mem member)))
  have logged : (flushed.reverse.map (·.2)).flatten = flushed.log := by
    simp [Flushed.log, Flushed.tables, Tables.log, List.map_reverse, Function.comp_def]
  have nothing : ((ready.map fun id => (id, ([] : List (Key × Value)))).map (·.2)).flatten = [] := by
    simp [List.flatten_eq_nil_iff]
  have split : ((State.afterCrash flushed last ready).map fun file =>
      recoverIndex (fileName file.1) file.2).reverse ++ base =
      ((ready.map fun id => (id, ([] : List (Key × Value)))).map fun file =>
        recoverIndex (fileName file.1) (encodeRecords file.2)).reverse ++
      ((last.map fun f => recoverIndex (fileName f.1) (CutFile.content f)).toList ++
        ((flushed.reverse.map fun table => recoverIndex (fileName table.1) (encodeRecords table.2)).reverse ++
          base)) := by
    cases last <;> simp [State.afterCrash, Function.comp_def]
  have older := get_recovered flushed.reverse storedFlushed (logged ▸ short) base key
  rw [logged] at older
  rw [split, get_recovered _ storedReady (by simp), nothing, lastValue_nil, Option.none_or]
  cases last with
  | none =>
    refine ⟨[], .inl rfl, ?_⟩
    rw [List.append_nil]
    exact older
  | some f =>
    obtain ⟨id, data, cut⟩ := f
    have file : dir'[fileName id]? = some ((encodeRecords data).take cut) :=
      stored (id, _) (List.mem_append_left _ (List.mem_append_right _ (by simp [CutFile.content])))
    have answer := lookup_cut (shortLast (id, data, cut) rfl) file key
    rw [Option.map_some, Option.toList_some, List.singleton_append, SSTableManager.get_cons, CutFile.content, answer,
      older]
    have isFront := cutRecords_isFront data cut
    generalize cutRecords data cut = parts at isFront ⊢
    obtain ⟨written, torn⟩ := parts
    by_cases hidden : torn = some key
    · refine ⟨[], .inl rfl, ?_⟩
      rw [hidden, survivors, lastValue_filter, List.append_nil]
      simp
    · refine ⟨written, .inr ⟨(id, data, cut), rfl, isFront⟩, ?_⟩
      have survives : lastValue (survivors (written, torn)) key = lastValue written key := by
        cases torn with
        | none => rfl
        | some other =>
          have different : key ≠ other := fun same => hidden (same ▸ rfl)
          rw [survivors, lastValue_filter]
          simp [different]
      rw [survives, lastValue_append, Option.or_assoc]

/-- The list of tables that recovery builds after a crash: the new files in front of those found before. -/
theorem recoverState_crashed (listing : listed.Perm dir.toList)
    (room : ∀ name content id, dir[name]? = some content → parseId name = some id → id + 1 < 2 ^ 64)
    (confined : Confined dir (recoverState listed).2 s) (crash : s.Crashed dir') (listing' : listed'.Perm dir'.toList)
    {files : Files} (described : files.Describes (newFiles dir dir')) (numbered : files.Numbered) :
    (recoverState listed').1 =
      (files.map fun file => recoverIndex (fileName file.1) file.2).reverse ++ (recoverState listed).1 := by
  have found := (confined.crashed crash).foundFiles_eq listing room listing'
  rw [numbered.foundFiles_eq (described.listing numbered (newFiles_listing listing'))] at found
  rw [recoverState_fst, recoverState_fst, found, List.map_append, List.reverse_append, List.map_map]
  rfl

/-- The tables found at the opening answer after a crash as they did before. -/
theorem get_found (listing : listed.Perm dir.toList)
    (room : ∀ name content id, dir[name]? = some content → parseId name = some id → id + 1 < 2 ^ 64)
    (confined : Confined dir (recoverState listed).2 s) (crash : s.Crashed dir') (key : Key) :
    SSTableManager.get (readValueAt dir')
      (recoverState listed).1 key = (State.openStore cfg dir listed).sstableGet key := by
  let opened := State.openStore cfg dir listed
  suffices files : ∀ index ∈ opened.head, dir'[index.path]? = opened.dir[index.path]? from
    sstableGet_frame (show ({ opened with dir := dir' } : State).head = opened.head from rfl) files key
  intro index member
  have inHead : index ∈ (recoverState listed).1 := member
  rw [recoverState_fst, List.mem_reverse] at inHead
  obtain ⟨file, inFound, rfl⟩ := List.mem_map.mp inHead
  have here := (mem_listing listing).mp (mem_foundFiles.mp inFound).1
  exact ((confined.crashed crash).untouched listing room here).trans here.symm

/-- What is left of a run of the store after a crash: a front part of its mutations, with at least those before any
barrier that had returned. -/
structure Kept (trace : List Event) (front : List (Key × Value)) : Prop where
  isFront : front <+: mutations trace
  covers : ∀ (before during after : List Event) (t : Tid) (r : Result),
    trace = before ++ [.call t .writeBarrier] ++ during ++ [.ret t .writeBarrier r] ++ after →
      mutations before <+: front

/-- A front part that has all that was flushed has all that any barrier waited for. -/
theorem kept_of_flushed (intact : ∀ s e, ok s e → e.intact = true)
    (run : Run (Allowed (State.step cfg) ok) (State.openStore cfg dir listed) trace s)
    (inv : Inv first trace (s.own dir) flushed) {front : List (Key × Value)} (flushedFirst : flushed.log <+: front)
    (isFront : front <+: mutations trace) : Kept trace front := by
  refine ⟨isFront, fun before during after t r split => ?_⟩
  subst split
  obtain ⟨returned, upTo, rest⟩ := run.split
  obtain ⟨flushed₀, inv₀, covers, -⟩ := barrier_log intact upTo
  have kept : s.pending <:+ returned.pending ++ mutations after := pending_suffix_of_run intact rest
  have pending : (s.own dir).pending <:+ returned.pending ++ mutations after := kept
  exact (covers.trans (inv₀.log_prefix inv pending)).trans flushedFirst

/-- One life of the store, from its opening on some directory to a crash: what is found of a key afterwards is what a
part of the mutations that is kept leaves there, in front of what the opening found. -/
theorem crashed_life {allowed : State → Event → Prop}
    (fits : ∀ s e, allowed s e → e.intact = true ∧ ∀ entry ∈ e.mutation, Short entry)
    (noPrealloc : cfg.preAllocBytes = 0) (listing : listed.Perm dir.toList)
    (room : ∀ name content id, dir[name]? = some content → parseId name = some id → id + 1 < 2 ^ 64)
    (run : Run (Allowed (State.step cfg) allowed) (State.openStore cfg dir listed) trace s) (crash : s.Crashed dir')
    (key : Key) :
    ∃ front, Kept trace front ∧ ∀ (cfg' : Config) (listed' : List (FileName × Bytes)), listed'.Perm dir'.toList →
      (State.openStore cfg' dir' listed').sstableGet key =
        (lastValue front key).or ((State.openStore cfg dir listed).sstableGet key) := by
  have intact : ∀ s e, allowed s e → e.intact = true := fun s e here => (fits s e here).1
  obtain ⟨flushed, inv, session⟩ := Session.own_of_run noPrealloc intact listing room run
  -- The files the crash leaves, and what recovery makes of them.
  have free : ∀ id ∈ s.hand.ids, dir[fileName id]? = none := fun id member =>
    session.absent listing room inv id (List.mem_append_left _ member)
  obtain ⟨last, described, ids, data⟩ := session.afterCrash inv free crash
  have confined := Confined.of_run run
  have numbered : (State.afterCrash flushed last s.pool.ready).Numbered := by
    have issued : (State.afterCrash flushed last s.pool.ready).map (·.1) = (s.own dir).issued flushed := by
      rw [afterCrash_ids, ids]
      rfl
    refine ⟨List.pairwise_map.mp (issued ▸ inv.ascending), fun file member => ?_⟩
    have isIssued : file.1 ∈ (s.own dir).issued flushed := issued ▸ List.mem_map_of_mem member
    exact (inv.below file.1 isIssued).trans session.counter.2
  have log := inv.log
  have short := mutations_short (fun s e here => (fits s e here).2) run
  have shortFlushed : ∀ entry ∈ flushed.log, Short entry := fun entry member =>
    short entry (by rw [log]; exact List.mem_append_left _ member)
  have shortLast : ∀ f ∈ last, ∀ entry ∈ f.2.1, Short entry := by
    intro f isLast entry member
    rw [data f isLast] at member
    exact short entry (by rw [log]; exact List.mem_append_right _ (List.mem_append_left _ member))
  obtain ⟨part, isPart, answer⟩ := get_afterCrash described shortFlushed shortLast (recoverState listed).1 key
  have isFront : flushed.log ++ part <+: mutations trace := by
    rw [log]
    refine (List.prefix_append_right_inj _).mpr ?_
    rcases isPart with rfl | ⟨f, isLast, isFront⟩
    · exact List.nil_prefix
    · rw [data f isLast] at isFront
      exact isFront.trans (List.prefix_append _ _)
  refine ⟨flushed.log ++ part, kept_of_flushed intact run inv (List.prefix_append _ _) isFront,
    fun cfg' listed' listing' => ?_⟩
  have tables : (State.openStore cfg' dir' listed').sstableGet key =
      SSTableManager.get (readValueAt dir') (recoverState listed').1 key := rfl
  rw [tables, recoverState_crashed listing room confined crash listing' described numbered, answer,
    get_found listing room confined crash key]

end Crash

/-- The directory behind lives of the store that began with an empty one and have each ended in a crash, with their
runs: any configurations without preallocation, any number of threads, the file opens of the pool failing or not. -/
inductive Lives : List (List Event) → Directory → Prop
  | none : Lives [] ∅
  | life {traces : List (List Event)} {cfg : Config} {dir dir' : Directory} {listed : List (FileName × Bytes)}
      {trace : List Event} {s : State} (before : Lives traces dir) (noPrealloc : cfg.preAllocBytes = 0)
      (listing : listed.Perm dir.toList)
      (room : ∀ name content id, dir[name]? = some content → parseId name = some id → id + 1 < 2 ^ 64)
      (run : Run (Allowed (State.step cfg) fun _ e => e.intact = true ∧ ∀ entry ∈ e.mutation, Short entry)
        (State.openStore cfg dir listed) trace s)
      (crash : s.Crashed dir') : Lives (traces ++ [trace]) dir'

/-- A barrier that has returned survives every later crash, of its own life of the store and of all lives after it:
what a store opened then returns for a key is what one part of the mutations of each life leaves there, a front part
that has at least every mutation before a barrier that had returned. -/
theorem barriers_survive_crashes {traces : List (List Event)} {dir : Directory} (lives : Lives traces dir)
    (cfg : Config) {listed : List (FileName × Bytes)} (listing : listed.Perm dir.toList) (key : Key) :
    ∃ fronts, List.Forall₂ Kept traces fronts ∧
      (State.openStore cfg dir listed).get key = visible (lastValue fronts.flatten key) := by
  suffices found : ∃ fronts, List.Forall₂ Kept traces fronts ∧ ∀ (cfg : Config) (listed : List (FileName × Bytes)),
      listed.Perm dir.toList → (State.openStore cfg dir listed).sstableGet key = lastValue fronts.flatten key by
    obtain ⟨fronts, kept, answer⟩ := found
    exact ⟨fronts, kept, by rw [get_openStore, answer cfg listed listing]⟩
  clear listing
  induction lives with
  | none =>
    refine ⟨[], .nil, fun cfg listed listing => ?_⟩
    have empty : (∅ : Directory).toList = [] := by simp
    rw [empty, List.perm_nil] at listing
    subst listing
    rfl
  | life before noPrealloc listing room run crash ih =>
    obtain ⟨fronts, kept, answer⟩ := ih
    obtain ⟨front, keptLast, afterwards⟩ :=
      crashed_life (fun _ _ allowed => allowed) noPrealloc listing room run crash key
    refine ⟨fronts ++ [front], List.rel_append kept (.cons keptLast .nil), fun cfg listed listing => ?_⟩
    rw [afterwards cfg listed listing, answer _ _ ‹_›, List.flatten_append, List.flatten_singleton, lastValue_append]

/-- The file that the flush has taken, if the memtable in its hands is this one. -/
def takenWith (s : State) (data : List (Key × Value)) : Option Nat := match s.hand with
  | .acquired m id => if m.data = data then some id else none
  | _ => none

/-- A second put, torn in the file of its flush: the first one, behind a barrier, is not lost. -/
theorem barriers_survive_crashes_torn : ∃ (s : State) (m : Memtable), s.hand = .acquired m 2 ∧
    ∀ (listed' : List (FileName × Bytes)),
    listed'.Perm (s.dir.insert (fileName 2) ((encodeRecords m.data).take 9)).toList →
      ∃ front : List (Key × Value), [([1], [7])] <+: front ∧
      (State.openStore ⟨100, 4, 2, 0⟩ (s.dir.insert (fileName 2) ((encodeRecords m.data).take 9)) listed').get [1] =
        visible (lastValue front [1]) := by
  obtain ⟨s, run, taken⟩ :
    ∃ s, Run (Allowed (State.step ⟨100, 4, 2, 0⟩) fun _ e => e.intact = true ∧ ∀ entry ∈ e.mutation, Short entry)
      (State.openStore ⟨100, 4, 2, 0⟩ ∅ [])
      (([.call 0 (.put [1] [7] false), .ret 0 (.put [1] [7] false) (.bool true)] : List Event) ++
        ([.call 1 .writeBarrier] : List Event) ++
        ([.pushed 1, .pool .check, .pool (.create true true), .pool .insert, .flush .pop, .flush (.acquire true),
          .flush (.write none), .flush .publish, .flush .finish] : List Event) ++
          ([.ret 1 .writeBarrier (.bool true)] : List Event) ++
        ([.call 0 (.put [1] [8] false), .ret 0 (.put [1] [8] false) (.bool true), .call 1 .writeBarrier, .pushed 1,
          .pool .check, .pool (.create true true), .pool .insert, .flush .pop, .flush (.acquire true)] :
            List Event)) s ∧ s.takenWith [([1], [8])] = some 2 := Run.exists_of_any (by decide +kernel)
  obtain ⟨m, acquired⟩ : ∃ m, s.hand = .acquired m 2 := by
    unfold takenWith at taken
    split at taken
    next m id acquired =>
      split at taken
      next => exact ⟨m, Option.some.inj taken ▸ acquired⟩
      next => cases taken
    next => cases taken
  refine ⟨s, m, acquired, fun listed' listing' => ?_⟩
  obtain ⟨fronts, kept, found⟩ := barriers_survive_crashes (.life .none rfl (by simp) (by simp) run (.torn acquired 9))
    ⟨100, 4, 2, 0⟩ listing' [1]
  obtain ⟨front, rest, here, none', rfl⟩ := List.forall₂_cons_left_iff.mp kept
  cases none'
  exact ⟨front, here.covers _ _ _ _ _ rfl, by rw [found, List.flatten_singleton]⟩

end State

end LSMIO
