import LSMIO.StreamReads

namespace LSMIO

def bytesIn (chunks : List Bytes) : Nat := (chunks.map List.length).sum

@[simp] theorem bytesIn_nil : bytesIn [] = 0 := rfl

@[simp] theorem bytesIn_cons (chunk : Bytes) (rest : List Bytes) :
    bytesIn (chunk :: rest) = chunk.length + bytesIn rest := by
  simp [bytesIn]

@[simp] theorem bytesIn_append (front back : List Bytes) :
    bytesIn (front ++ back) = bytesIn front + bytesIn back := by
  simp [bytesIn]

/-- No chunk with a byte follows an empty one, and the length of all is an offset of `std::streamoff`. -/
def Recoverable (chunks : List Bytes) : Prop :=
  chunks.Pairwise (fun earlier later => earlier = [] → later = []) ∧ bytesIn chunks < 2 ^ 63

instance : DecidablePred Recoverable := fun _ => inferInstanceAs (Decidable (_ ∧ _))

namespace LSMIOStream

/-- The position that chunks lead to, one after the other. -/
def after (off : Int) (chunks : List Bytes) : Int := chunks.foldl (fun off chunk => advance off chunk.length) off

/-- Each chunk with the position at which it is written. -/
def placed (off : Int) : List Bytes → List (Int × Bytes)
  | [] => []
  | chunk :: rest => (off, chunk) :: placed (advance off chunk.length) rest

@[simp] theorem after_cons (off : Int) (chunk : Bytes) (rest : List Bytes) :
    after off (chunk :: rest) = after (advance off chunk.length) rest := rfl

theorem after_append (off : Int) (front back : List Bytes) : after off (front ++ back) = after (after off front) back :=
  List.foldl_append

theorem placed_append (off : Int) (front back : List Bytes) :
    placed off (front ++ back) = placed off front ++ placed (after off front) back := by
  induction front generalizing off with
  | nil => rfl
  | cons chunk front ih => rw [List.cons_append, placed, ih, placed, List.cons_append, after_cons]

theorem after_concat (off : Int) (chunks : List Bytes) (chunk : Bytes) :
    after off (chunks ++ [chunk]) = advance (after off chunks) chunk.length :=
  after_append ..

theorem placed_concat (off : Int) (chunks : List Bytes) (chunk : Bytes) :
    placed off (chunks ++ [chunk]) = placed off chunks ++ [(after off chunks, chunk)] :=
  placed_append ..

theorem advance_eq {off : Int} {n : Nat} (low : 0 ≤ off) (room : off + n < 2 ^ 63) : advance off n = off + n := by
  rw [advance, Int.bmod_eq_of_le] <;> omega

theorem advance_lt (off : Int) (n : Nat) : advance off n < 2 ^ 63 := by
  have bound := @Int.bmod_lt (off + n) (2 ^ 64) (by decide)
  rw [advance]
  omega

theorem after_eq {off : Int} {chunks : List Bytes} (low : 0 ≤ off) (room : off + bytesIn chunks < 2 ^ 63) :
    after off chunks = off + bytesIn chunks := by
  induction chunks generalizing off with
  | nil => simp [after]
  | cons chunk rest ih =>
    rw [bytesIn_cons] at room ⊢
    have next : advance off chunk.length = off + chunk.length := advance_eq low (by omega)
    rw [after_cons, next, ih (by omega) (by omega)]
    omega

theorem after_zero_eq {chunks : List Bytes} (room : bytesIn chunks < 2 ^ 63) : after 0 chunks = bytesIn chunks := by
  rw [after_eq le_rfl (by omega), zero_add]

theorem advance_zero {off : Int} (low : 0 ≤ off) (room : off < 2 ^ 63) : advance off 0 = off :=
  (advance_eq low (by omega)).trans (Int.add_zero off)

theorem le_of_mem_placed {off : Int} {chunks : List Bytes} (low : 0 ≤ off) (room : off + bytesIn chunks < 2 ^ 63)
    {entry : Int × Bytes} (member : entry ∈ placed off chunks) : off ≤ entry.1 := by
  induction chunks generalizing off with
  | nil => cases member
  | cons chunk rest ih =>
    rw [bytesIn_cons] at room
    have next : advance off chunk.length = off + chunk.length := advance_eq low (by omega)
    rw [placed, next] at member
    rcases List.mem_cons.mp member with rfl | later
    · exact le_refl off
    · have further := ih (by omega) (by omega) later
      omega

/-- Behind a chunk with a byte nothing is written at its position. -/
theorem lastValue_placed_beyond {off : Int} {chunk : Bytes} {rest : List Bytes} (low : 0 ≤ off)
    (room : off + bytesIn (chunk :: rest) < 2 ^ 63) (bytes : chunk ≠ []) :
    lastValue (placed (advance off chunk.length) rest) off = none := by
  have positive := List.length_pos_of_ne_nil bytes
  rw [bytesIn_cons] at room
  rw [lastValue_eq_none_iff]
  intro value member
  have next : advance off chunk.length = off + chunk.length := advance_eq low (by omega)
  rw [next] at member
  have further := le_of_mem_placed (by omega) (by omega) member
  simp only at further
  omega

/-- The first chunk with a byte is what stays at the position where it and the empty ones before it are written. -/
theorem lastValue_placed_of_bytes {off : Int} {chunks : List Bytes} (low : 0 ≤ off)
    (room : off + bytesIn chunks < 2 ^ 63) (bytes : ∃ chunk ∈ chunks, chunk ≠ []) :
    ∃ chunk ≠ [], lastValue (placed off chunks) off = some chunk := by
  induction chunks with
  | nil => simp at bytes
  | cons chunk rest ih =>
    rw [placed, ← List.singleton_append, lastValue_append]
    by_cases empty : chunk = []
    · subst empty
      obtain ⟨first, full, found⟩ := ih (by simpa using room) (by simpa using bytes)
      have stays : advance off ([] : Bytes).length = off := advance_zero low (by omega)
      exact ⟨first, full, by rw [stays, found, Option.some_or]⟩
    · refine ⟨chunk, empty, ?_⟩
      rw [lastValue_placed_beyond low room empty, Option.none_or]
      simp [lastValue]

theorem mem_of_mem_placed {off : Int} {chunks : List Bytes} {entry : Int × Bytes} (member : entry ∈ placed off chunks) :
    entry.2 ∈ chunks := by
  induction chunks generalizing off with
  | nil => cases member
  | cons chunk rest ih =>
    rcases List.mem_cons.mp member with rfl | later
    · exact List.mem_cons_self ..
    · exact List.mem_cons_of_mem _ (ih later)

theorem placed_split (front : List Bytes) (chunk : Bytes) (back : List Bytes) (at' : Int) :
    lastValue (placed 0 (front ++ chunk :: back)) at' =
      (lastValue (placed (advance (after 0 front) chunk.length) back) at').or
        (if at' = after 0 front then some chunk else lastValue (placed 0 front) at') := by
  rw [placed_append, placed, List.append_cons, lastValue_append, lastValue_concat]

/-- Each chunk of one path is what is stored at its position, and the positions are the lengths so far. -/
def Delivers (chunks : List Bytes) : Prop :=
  ∀ front chunk back, chunks = front ++ chunk :: back →
    (lastValue (placed 0 chunks) (after 0 front)).getD [] = chunk ∧
      after 0 (front ++ [chunk]) = bytesIn (front ++ [chunk])

theorem Recoverable.delivers {chunks : List Bytes} (recoverable : Recoverable chunks) : Delivers chunks := by
  rintro front chunk back rfl
  obtain ⟨order, room⟩ := recoverable
  rw [bytesIn_append] at room
  have reached : after 0 front = bytesIn front := after_zero_eq (by omega)
  refine ⟨?_, ?_⟩
  · rw [placed_split, if_pos rfl]
    by_cases empty : chunk = []
    · have silent : ∀ later ∈ back, later = [] := fun later member =>
        (List.pairwise_cons.mp (List.pairwise_append.mp order).2.1).1 later member empty
      cases found : lastValue (placed (advance (after 0 front) chunk.length) back) (after 0 front) with
      | none => rfl
      | some later =>
        have isEmpty : later = [] := silent later (mem_of_mem_placed (mem_of_lastValue found))
        rw [Option.some_or, Option.getD_some, isEmpty, empty]
    · rw [lastValue_placed_beyond (by omega) (by omega) empty, Option.none_or, Option.getD_some]
  · rw [bytesIn_cons] at room
    refine after_zero_eq ?_
    rw [bytesIn_append, bytesIn_cons, bytesIn_nil]
    omega

theorem after_lt {off : Int} (low : off < 2 ^ 63) (chunks : List Bytes) : after off chunks < 2 ^ 63 := by
  induction chunks using List.reverseRecOn with
  | nil => exact low
  | append_singleton chunks chunk ih =>
    rw [after_concat]
    exact advance_lt _ _

theorem Delivers.recoverable {chunks : List Bytes} (delivers : Delivers chunks) : Recoverable chunks := by
  have room : bytesIn chunks < 2 ^ 63 := by
    induction chunks using List.reverseRecOn with
    | nil => simp
    | append_singleton front chunk _ =>
      have reached := (delivers front chunk [] rfl).2
      have bound := @after_lt 0 (by decide) (front ++ [chunk])
      omega
  refine ⟨List.pairwise_iff_forall_sublist.mpr ?_, room⟩
  rintro earlier later inOrder rfl
  obtain ⟨front, back, rfl, here, there⟩ := List.cons_sublist_iff.mp inOrder
  obtain ⟨before, between, rfl⟩ := List.append_of_mem here
  by_contra bytes
  have split : before ++ [] :: between ++ back = before ++ [] :: (between ++ back) := by simp
  rw [split] at delivers room
  rw [bytesIn_append, bytesIn_cons, List.length_nil, zero_add] at room
  have reached : after 0 before = bytesIn before := after_zero_eq (by omega)
  have stays : advance (after 0 before) ([] : Bytes).length = after 0 before := advance_zero (by omega) (by omega)
  have member : later ∈ between ++ back := List.mem_append_right _ (List.singleton_sublist.mp there)
  obtain ⟨first, full, found⟩ := @lastValue_placed_of_bytes (after 0 before) (between ++ back) (by omega)
    (by omega) ⟨later, member, bytes⟩
  have stored := (delivers before [] (between ++ back) rfl).1
  rw [placed_split, stays, found] at stored
  exact full stored

theorem delivers_iff {chunks : List Bytes} : Delivers chunks ↔ Recoverable chunks :=
  ⟨Delivers.recoverable, Recoverable.delivers⟩

section Streams

variable {Id : Type*} [DecidableEq Id]

/-- The chunks of one stream among the calls on several. -/
def chunksOf (calls : List (Id × Bytes)) (id : Id) : List Bytes :=
  calls.filterMap fun c => if c.1 = id then some c.2 else none

/-- Streams opened on their paths with an initialized manager and an empty database. -/
def opened (paths : Id → Bytes) (mode : Id → OpenMode) (ids : List Id) : LSMIOStream Id :=
  ids.foldl (fun s id => s.openFile id (paths id) (mode id)) (start true)

def writeAll (s : LSMIOStream Id) (writes : List (Id × Bytes)) : LSMIOStream Id :=
  writes.foldl (fun s c => (s.write c.1 c.2).2) s

/-- `seekp(0)` on each stream. -/
def rewind (s : LSMIOStream Id) (ids : List Id) : LSMIOStream Id := ids.foldl (fun s id => (s.seekp id 0 .beg).2) s

/-- Reads with the sizes of the chunks given. -/
def readAll (s : LSMIOStream Id) (reads : List (Id × Bytes)) : LSMIOStream Id :=
  reads.foldl (fun s c => (s.read c.1 c.2.length).2) s

/-- Every read returns the chunk given, and `tellp` is then the length read from the stream so far. -/
def ReadsBack (s : LSMIOStream Id) (reads : List (Id × Bytes)) : Prop :=
  ∀ done id chunk rest, reads = done ++ (id, chunk) :: rest →
    ((s.readAll done).read id chunk.length).1 = some chunk ∧
      ((s.readAll done).read id chunk.length).2.tellp id = bytesIn (chunksOf (done ++ [(id, chunk)]) id)

/-- The database has what the streams wrote, and each stands where its chunks among the last calls lead. -/
structure Stands (paths : Id → Bytes) (ids : List Id) (writes moved : List (Id × Bytes)) (s : LSMIOStream Id) :
    Prop where
  ready : s.initialized = true
  path : ∀ id ∈ ids, s.filePath id = paths id
  stored : ∀ id ∈ ids, ∀ off, s.lm[genKey (paths id) off]? = lastValue (placed 0 (chunksOf writes id)) off
  position : ∀ id ∈ ids, s.offset (paths id) = after 0 (chunksOf moved id)

theorem chunksOf_concat (calls : List (Id × Bytes)) (c : Id × Bytes) (id : Id) :
    chunksOf (calls ++ [c]) id = if c.1 = id then chunksOf calls id ++ [c.2] else chunksOf calls id := by
  rw [chunksOf, List.filterMap_snoc]
  by_cases here : c.1 = id
  · simp [here, chunksOf]
  · simp [here, chunksOf]

theorem chunksOf_append (front back : List (Id × Bytes)) (id : Id) :
    chunksOf (front ++ back) id = chunksOf front id ++ chunksOf back id :=
  List.filterMap_append

/-- A place among the chunks of one stream is a place among the calls. -/
theorem exists_split {calls : List (Id × Bytes)} {id : Id} {front back : List Bytes} {chunk : Bytes}
    (split : chunksOf calls id = front ++ chunk :: back) :
    ∃ done rest, calls = done ++ (id, chunk) :: rest ∧ chunksOf done id = front := by
  obtain ⟨before, others, rfl, same, next⟩ := List.filterMap_eq_append_iff.mp split
  obtain ⟨skipped, ⟨id', chunk'⟩, rest, rfl, silent, here, -⟩ := List.filterMap_eq_cons_iff.mp next
  obtain ⟨rfl, rfl⟩ : id' = id ∧ chunk' = chunk := by simpa using here
  have nothing : chunksOf skipped id' = [] := List.filterMap_eq_nil_iff.mpr silent
  refine ⟨before ++ skipped, rest, by simp, ?_⟩
  rw [chunksOf_append, nothing, List.append_nil]
  exact same

variable {paths : Id → Bytes} {ids : List Id} {writes moved reads : List (Id × Bytes)} {s : LSMIOStream Id}

omit [DecidableEq Id] in
theorem offset_of_insert {s s' : LSMIOStream Id} {path : Bytes} {off : Int}
    (moved : s'.fileMap = s.fileMap.insert path off) (path' : Bytes) :
    s'.offset path' = if path = path' then off else s.offset path' := by
  rw [offset, moved, OrderedMap.getElem?_insert]
  split <;> rfl

theorem Stands.of_opened (mode : Id → OpenMode) (ids : List Id) : Stands paths ids [] [] (opened paths mode ids) := by
  suffices fresh : (opened paths mode ids).initialized = true ∧ (opened paths mode ids).lm = ∅ ∧
      (∀ id ∈ ids, (opened paths mode ids).filePath id = paths id) ∧ ∀ path, (opened paths mode ids).offset path = 0 by
    obtain ⟨ready, empty, path, position⟩ := fresh
    exact ⟨ready, path, fun id _ off => by rw [empty]; rfl, fun id _ => position (paths id)⟩
  induction ids using List.reverseRecOn with
  | nil => exact ⟨rfl, rfl, fun id member => absurd member List.not_mem_nil, fun path => rfl⟩
  | append_singleton ids id ih =>
    obtain ⟨ready, empty, path, position⟩ := ih
    rw [opened, List.foldl_append]
    refine ⟨ready, empty, fun other member => ?_, fun at' => ?_⟩
    · simp only [List.foldl_cons, List.foldl_nil, openFile, Function.update_apply]
      split
      next here => rw [here]
      next here => exact path other ((List.mem_append.mp member).resolve_right (by simpa using here))
    · by_cases anew : paths id ∉ (opened paths mode ids).fileMap ∨ mode id = {.trunc}
      · rw [@offset_of_insert _ (opened paths mode ids) _ (paths id) 0 (if_pos anew), position, ite_self]
      · have kept : (((opened paths mode ids).openFile id (paths id) (mode id))).fileMap =
            (opened paths mode ids).fileMap := if_neg anew
        exact (congrArg (fun map => map[at']?.getD 0) kept).trans (position at')

/-- A stream moved over a chunk is the only one that moves. -/
theorem Stands.moves (stands : Stands paths ids writes moved s) (distinct : Set.InjOn paths {id | id ∈ ids})
    {s' : LSMIOStream Id} {c : Id × Bytes} (mine : c.1 ∈ ids)
    (fileMap : s'.fileMap = s.fileMap.insert (paths c.1) (advance (s.offset (paths c.1)) c.2.length)) :
    ∀ id ∈ ids, s'.offset (paths id) = after 0 (chunksOf (moved ++ [c]) id) := by
  intro id member
  rw [offset_of_insert fileMap, chunksOf_concat, stands.position _ mine, stands.position _ member]
  by_cases here : c.1 = id
  · subst here
    rw [if_pos rfl, if_pos rfl, after_concat]
  · rw [if_neg here, if_neg fun same => here (distinct mine member same)]

theorem Stands.write (stands : Stands paths ids writes writes s) (distinct : Set.InjOn paths {id | id ∈ ids})
    {c : Id × Bytes} (mine : c.1 ∈ ids) : Stands paths ids (writes ++ [c]) (writes ++ [c]) (s.write c.1 c.2).2 := by
  have here := stands.path _ mine
  unfold LSMIOStream.write
  rw [if_pos stands.ready, here]
  refine ⟨stands.ready, stands.path, fun id member off => ?_, stands.moves distinct mine rfl⟩
  refine (OrderedMap.getElem?_insert ..).trans ?_
  rw [stands.stored id member, chunksOf_concat, stands.position _ mine]
  simp only [genKey_inj]
  by_cases same : c.1 = id
  · subst same
    rw [if_pos rfl, placed_concat, lastValue_concat]
    simp only [true_and, eq_comm]
  · rw [if_neg same, if_neg fun keys => same (distinct mine member keys.1)]

theorem Stands.writeAll (stands : Stands paths ids [] [] s) (distinct : Set.InjOn paths {id | id ∈ ids})
    (known : ∀ c ∈ writes, c.1 ∈ ids) : Stands paths ids writes writes (s.writeAll writes) := by
  induction writes using List.reverseRecOn with
  | nil => exact stands
  | append_singleton writes c ih =>
    have before := ih fun other member => known other (List.mem_append_left _ member)
    rw [LSMIOStream.writeAll, List.foldl_append]
    exact before.write distinct (known c (List.mem_append_right _ (List.mem_singleton_self c)))

omit [DecidableEq Id] in
theorem rewind_frame (s : LSMIOStream Id) (ids : List Id) : (s.rewind ids).initialized = s.initialized ∧
    (s.rewind ids).filePath = s.filePath ∧ (s.rewind ids).lm = s.lm ∧
    ∀ id ∈ ids, (s.rewind ids).offset (s.filePath id) = 0 := by
  induction ids using List.reverseRecOn with
  | nil => exact ⟨rfl, rfl, rfl, fun id member => absurd member List.not_mem_nil⟩
  | append_singleton ids last ih =>
    obtain ⟨ready, path, lm, position⟩ := ih
    rw [rewind, List.foldl_append]
    refine ⟨ready, path, lm, fun id member => ?_⟩
    refine (@offset_of_insert _ (s.rewind ids) _ (s.filePath last) 0 (by rw [← path]; rfl) _).trans ?_
    split
    · rfl
    next other =>
      refine position id ((List.mem_append.mp member).resolve_right fun here => other ?_)
      rw [List.mem_singleton.mp here]

theorem Stands.rewind (stands : Stands paths ids writes moved s) : Stands paths ids writes [] (s.rewind ids) := by
  obtain ⟨ready, path, lm, position⟩ := s.rewind_frame ids
  refine ⟨ready.trans stands.ready, fun id member => path ▸ stands.path id member, fun id member off => ?_,
    fun id member => ?_⟩
  · rw [lm, stands.stored id member]
  · rw [← stands.path id member, position id member]
    rfl

/-- A read delivers the last chunk written at the position of its stream, if it has the size. -/
theorem Stands.read_eq_some (stands : Stands paths ids writes moved s) {id : Id} (mine : id ∈ ids) {chunk : Bytes} :
    (s.read id chunk.length).1 = some chunk ↔
      (lastValue (placed 0 (chunksOf writes id)) (after 0 (chunksOf moved id))).getD [] = chunk := by
  rw [Compared.read_eq_readAt, Compared.readAt_eq_some, stands.path id mine, stands.stored id mine,
    stands.position id mine]
  simp [stands.ready]

theorem Stands.read (stands : Stands paths ids writes moved s) (distinct : Set.InjOn paths {id | id ∈ ids}) {id : Id}
    (mine : id ∈ ids) {chunk : Bytes} (returned : (s.read id chunk.length).1 = some chunk) :
    Stands paths ids writes (moved ++ [(id, chunk)]) (s.read id chunk.length).2 := by
  rw [Compared.read_eq_readAt] at returned
  have here := stands.path id mine
  unfold LSMIOStream.read
  simp only [returned]
  rw [here]
  exact ⟨stands.ready, stands.path, stands.stored, @Stands.moves _ _ _ _ _ _ _ stands distinct _ (id, chunk) mine rfl⟩

theorem Stands.tellp_eq (stands : Stands paths ids writes moved s) {id : Id} (mine : id ∈ ids) :
    s.tellp id = after 0 (chunksOf moved id) := by
  rw [tellp, stands.path id mine, stands.position id mine]

/-- As long as every read returns its chunk, the streams stand where the chunks read lead. -/
theorem Stands.readAll (stands : Stands paths ids writes [] s) (distinct : Set.InjOn paths {id | id ∈ ids})
    (known : ∀ c ∈ reads, c.1 ∈ ids)
    (returned : ∀ done c rest, reads = done ++ c :: rest → Stands paths ids writes done (s.readAll done) →
      ((s.readAll done).read c.1 c.2.length).1 = some c.2)
    {done rest : List (Id × Bytes)} (split : reads = done ++ rest) : Stands paths ids writes done (s.readAll done) := by
  induction done using List.reverseRecOn generalizing rest with
  | nil => exact stands
  | append_singleton done c ih =>
    have here : reads = done ++ c :: rest := split.trans (List.append_cons ..).symm
    have before := ih here
    have mine : c.1 ∈ ids := known c (here ▸ List.mem_append_right _ (List.mem_cons_self ..))
    rw [LSMIOStream.readAll, List.foldl_append]
    exact before.read distinct mine (returned done c rest here before)

theorem chunksOf_split {done rest : List (Id × Bytes)} {c : Id × Bytes} (split : reads = done ++ c :: rest) :
    chunksOf reads c.1 = chunksOf done c.1 ++ c.2 :: chunksOf rest c.1 := by
  rw [split, List.append_cons, chunksOf_append, chunksOf_concat, if_pos rfl, List.append_assoc]
  rfl

/-- Streams on distinct paths write chunks in any order of the calls, and after
`seekp(0)` read them back in any other: every read returns its chunk, and `tellp` follows,
exactly when on each path no chunk with a byte follows an empty one and the offsets
stay in range. An empty chunk is stored under the key of the next one. -/
theorem reads_back_iff (mode : Id → OpenMode) (distinct : Set.InjOn paths {id | id ∈ ids})
    (known : ∀ c ∈ writes, c.1 ∈ ids) (same : ∀ id, chunksOf reads id = chunksOf writes id) :
    (((opened paths mode ids).writeAll writes).rewind ids).ReadsBack reads ↔
      ∀ id, Recoverable (chunksOf writes id) := by
  have stands := ((Stands.of_opened mode ids).writeAll distinct known).rewind
  have knownReads : ∀ c ∈ reads, c.1 ∈ ids := by
    intro c member
    have read : c.2 ∈ chunksOf reads c.1 := List.mem_filterMap.mpr ⟨c, member, if_pos rfl⟩
    rw [same] at read
    obtain ⟨w, written, here⟩ := List.mem_filterMap.mp read
    split at here
    next mine => exact mine ▸ known w written
    next => cases here
  constructor
  · intro back id
    refine Delivers.recoverable fun front chunk behind place => ?_
    rw [← same] at place
    obtain ⟨done, rest, split, rfl⟩ := exists_split place
    have mine : id ∈ ids := knownReads (id, chunk) (split ▸ List.mem_append_right _ (List.mem_cons_self ..))
    have reached := stands.readAll distinct knownReads
      (fun done c rest split _ => (back done c.1 c.2 rest split).1) split
    obtain ⟨returned, told⟩ := back done id chunk rest split
    refine ⟨(reached.read_eq_some mine).mp returned, ?_⟩
    rw [(reached.read distinct mine returned).tellp_eq mine, chunksOf_concat, if_pos rfl] at told
    exact told
  · intro recoverable
    have places : ∀ done c rest, reads = done ++ c :: rest →
        (lastValue (placed 0 (chunksOf writes c.1)) (after 0 (chunksOf done c.1))).getD [] = c.2 ∧
          after 0 (chunksOf done c.1 ++ [c.2]) = bytesIn (chunksOf done c.1 ++ [c.2]) := fun done c rest split =>
      delivers_iff.mpr (recoverable c.1) _ _ _ ((same c.1).symm.trans (chunksOf_split split))
    have mine : ∀ {done c rest}, reads = done ++ c :: rest → c.1 ∈ ids := fun split =>
      knownReads _ (split ▸ List.mem_append_right _ (List.mem_cons_self ..))
    intro done id chunk rest split
    have reached := stands.readAll distinct knownReads
      (fun done c rest split before => (before.read_eq_some (mine split)).mpr (places done c rest split).1) split
    have returned := (reached.read_eq_some (mine split)).mpr (places done (id, chunk) rest split).1
    refine ⟨returned, ?_⟩
    rw [(reached.read distinct (mine split) returned).tellp_eq (mine split), chunksOf_concat, if_pos rfl]
    exact (places done (id, chunk) rest split).2

/-- Two paths, written in turns and read one after the other. -/
theorem reads_back_two : (((opened (fun id : Fin 2 => [[97], [98]].getD id []) (fun _ => {.output}) [0, 1]).writeAll
      [(0, [1]), (1, [2, 3]), (0, [4]), (1, [])]).rewind [0, 1]).ReadsBack [(1, [2, 3]), (1, []), (0, [1]), (0, [4])] :=
  (reads_back_iff _ (Function.Injective.injOn (by decide)) (by decide) (by decide)).mpr (by decide)

/-- An empty chunk and one byte behind it: the read of the empty chunk throws. -/
theorem not_reads_back : ¬ ∀ (paths : Nat → Bytes) (mode : Nat → OpenMode) (ids : List Nat)
    (writes reads : List (Nat × Bytes)),
    Set.InjOn paths {id | id ∈ ids} → (∀ c ∈ writes, c.1 ∈ ids) → (∀ id, chunksOf reads id = chunksOf writes id) →
      (((opened paths mode ids).writeAll writes).rewind ids).ReadsBack reads := by
  intro always
  have back := always (fun _ => [97]) (fun _ => {.output}) [0] [(0, []), (0, [1])] [(0, []), (0, [1])]
    (by simp) (by simp) fun _ => rfl
  have read := (back [] 0 [] [(0, [1])] rfl).1
  revert read
  decide +kernel

end Streams

end LSMIOStream

end LSMIO
