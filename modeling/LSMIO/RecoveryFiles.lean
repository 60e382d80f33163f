import LSMIO.Recovery

namespace LSMIO

/-- The last occurrence of a pattern in a text that ends with it. -/
theorem rfind_suffix (text : Bytes) {pattern : Bytes} (nonempty : pattern ≠ []) :
    rfind (text ++ pattern) pattern = text.length := by
  have found : ∀ j, rfindFrom (text ++ pattern) pattern (text.length + j) = text.length := by
    intro j
    induction j with
    | zero =>
      rw [Nat.add_zero]
      cases length : text.length with
      | zero => simp [rfindFrom, List.length_eq_zero_iff.mp length]
      | succ n => simp [rfindFrom, ← length]
    | succ j ih =>
      rw [← Nat.add_assoc, rfindFrom, ih, if_neg]
      intro starts
      have short := (List.isPrefixOf_iff_prefix.mp starts).length_le
      have positive := List.length_pos_iff.mpr nonempty
      simp only [List.length_drop, List.length_append] at short
      omega
  rw [rfind, List.length_append, found]

/-- Digits are no white space and no sign. -/
theorem stoull_digits {text : Bytes} (digital : ∀ b ∈ text, Decimal.isDigit b) (nonempty : text ≠ [])
    (small : Decimal.value text < 2 ^ 64) : stoull text = some (Decimal.value text) := by
  cases text with
  | nil => exact absurd rfl nonempty
  | cons b rest =>
    have first := digital b (List.mem_cons_self ..)
    have range : 48 ≤ b.toNat ∧ b.toNat ≤ 57 := by simpa [Decimal.isDigit] using first
    have noSpace : isSpace b = false := by
      have different : b ≠ 32 := by
        rintro rfl
        exact absurd range.1 (by decide)
      simp only [isSpace, beq_eq_false_iff_ne.mpr different, Bool.false_or, Bool.and_eq_false_iff,
        decide_eq_false_iff_not]
      omega
    have noMinus : b ≠ 45 := by
      rintro rfl
      exact absurd range.1 (by decide)
    have noPlus : b ≠ 43 := by
      rintro rfl
      exact absurd range.1 (by decide)
    have all : (b :: rest).takeWhile Decimal.isDigit = b :: rest := by
      simpa using Decimal.takeWhile_digits digital (.inl rfl)
    have trimmed : (b :: rest).dropWhile isSpace = b :: rest := by simp [noSpace]
    have fits : ¬ (b :: rest = [] ∨ 2 ^ 64 ≤ Decimal.value (b :: rest)) := by
      rintro (empty | large)
      · cases empty
      · omega
    simp only [stoull, trimmed, List.head?_cons, Option.some.injEq, noMinus, noPlus, or_self, if_false, all,
      if_neg fits]

/-- Recovery reads back the id of a file the pool has named. -/
theorem parseId_fileName {id : Nat} (small : id < 2 ^ 64) : parseId (fileName id) = some id := by
  set middle := List.replicate (6 - (Decimal.digits id).length) 48 ++ Decimal.digits id with isMiddle
  have name : fileName id = ascii "L0-" ++ middle ++ ascii ".sst" := rfl
  have width : (Decimal.digits id).length ≤ 20 := by
    rw [Decimal.digits, List.length_map, Nat.length_toDigits_le_iff (by decide) (by decide)]
    omega
  have short : middle.length ≤ 26 := by
    rw [isMiddle, List.length_append, List.length_replicate]
    omega
  have prefixLength : (ascii "L0-").length = 3 := by decide
  have suffixLength : (ascii ".sst").length = 4 := by decide
  have length : (fileName id).length = middle.length + 7 := by
    rw [name, List.length_append, List.length_append, prefixLength, suffixLength]
    omega
  have starts : (ascii "L0-").isPrefixOf (fileName id) = true := by
    rw [name, List.isPrefixOf_iff_prefix, List.append_assoc]
    exact List.prefix_append ..
  have ends : rfind (fileName id) (ascii ".sst") = ((fileName id).length + 2 ^ 64 - 4) % 2 ^ 64 := by
    rw [length, name, rfind_suffix _ (by decide), List.length_append, prefixLength]
    omega
  have number : ((fileName id).drop 3).take (((fileName id).length + 2 ^ 64 - 7) % 2 ^ 64) = middle := by
    have count : ((fileName id).length + 2 ^ 64 - 7) % 2 ^ 64 = middle.length := by
      rw [length]
      omega
    rw [count, name, List.append_assoc, ← prefixLength, List.drop_left, List.take_left]
  have digital : ∀ b ∈ middle, Decimal.isDigit b := by
    intro b member
    rcases List.mem_append.mp member with zero | digit
    · rw [List.eq_of_mem_replicate zero]
      decide
    · exact Decimal.digits_isDigit id b digit
  have value : Decimal.value middle = id := by rw [isMiddle, Decimal.value_zeros_append, Decimal.value_digits]
  have nonempty : middle ≠ [] := by simp [isMiddle, Decimal.digits_ne_nil]
  rw [parseId, if_pos ⟨starts, ends⟩, number, stoull_digits digital nonempty (by rwa [value]), value]

theorem foundBefore_trans {a b c : Nat × FileName × Bytes} (first : FoundBefore a b) (second : FoundBefore b c) :
    FoundBefore a c := by
  rcases first with less | ⟨same, before⟩
  · rcases second with less' | ⟨same', -⟩
    · exact .inl (less.trans less')
    · exact .inl (same' ▸ less)
  · rcases second with less' | ⟨same', before'⟩
    · exact .inl (same ▸ less')
    · refine .inr ⟨same.trans same', ?_⟩
      have lower : (compare a.2.1 b.2.1).isLE := by simpa [Ordering.isLE_iff_ne_gt] using before
      have upper : (compare b.2.1 c.2.1).isLE := by simpa [Ordering.isLE_iff_ne_gt] using before'
      simpa [Ordering.isLE_iff_ne_gt] using Std.TransCmp.isLE_trans lower upper

theorem foundBefore_total (a b : Nat × FileName × Bytes) : FoundBefore a b ∨ FoundBefore b a := by
  rcases Nat.lt_trichotomy a.1 b.1 with less | same | more
  · exact .inl (.inl less)
  · by_cases before : compare a.2.1 b.2.1 = .gt
    · refine .inr (.inr ⟨same.symm, ?_⟩)
      rw [Std.OrientedCmp.gt_iff_lt.mp before]
      decide
    · exact .inl (.inr ⟨same, before⟩)
  · exact .inr (.inl more)

instance : IsTrans (Nat × FileName × Bytes) FoundBefore := ⟨fun _ _ _ => foundBefore_trans⟩

instance : Std.Total FoundBefore := ⟨foundBefore_total⟩

/-- The indexes of the files found, newest first. -/
theorem recoverState_fst (listed : List (FileName × Bytes)) :
    (recoverState listed).1 = ((foundFiles listed).map fun file => recoverIndex file.2.1 file.2.2).reverse := by
  have folded : ∀ (found : List (Nat × FileName × Bytes)) (head : List L0Index),
      found.foldl (fun head file => recoverIndex file.2.1 file.2.2 :: head) head =
        (found.map fun file => recoverIndex file.2.1 file.2.2).reverse ++ head := by
    intro found
    induction found with
    | nil => simp
    | cons file found ih => simp [ih]
  simp only [recoverState, folded, List.append_nil]

theorem mem_foundFiles {listed : List (FileName × Bytes)} {id : Nat} {name : FileName} {content : Bytes} :
    (id, name, content) ∈ foundFiles listed ↔ (name, content) ∈ listed ∧ parseId name = some id := by
  rw [foundFiles, List.mem_insertionSort, List.mem_filterMap]
  constructor
  · rintro ⟨⟨other, bytes⟩, member, found⟩
    obtain ⟨n, parsed, same⟩ := Option.map_eq_some_iff.mp found
    cases same
    exact ⟨member, parsed⟩
  · rintro ⟨member, parsed⟩
    exact ⟨(name, content), member, by simp [parsed]⟩

/-- No file is found twice. -/
theorem nodup_foundFiles {listed : List (FileName × Bytes)} (distinct : listed.Nodup) : (foundFiles listed).Nodup := by
  refine (List.perm_insertionSort _ _).nodup_iff.mpr (distinct.filterMap fun entry other file here there => ?_)
  obtain ⟨id, -, rfl⟩ := Option.map_eq_some_iff.mp here
  obtain ⟨id', -, same⟩ := Option.map_eq_some_iff.mp there
  exact (congrArg Prod.snd same).symm

theorem nodup_listing {dir : Directory} {listed : List (FileName × Bytes)} (listing : listed.Perm dir.toList) :
    listed.Nodup :=
  listing.nodup_iff.mpr (OrderedMap.nodup_of_ascending Std.ExtTreeMap.ordered_keys_toList)

theorem mem_listing {dir : Directory} {listed : List (FileName × Bytes)} (listing : listed.Perm dir.toList)
    {name : FileName} {content : Bytes} : (name, content) ∈ listed ↔ dir[name]? = some content := by
  rw [listing.mem_iff, Std.ExtTreeMap.mem_toList_iff_getElem?_eq_some]

/-- The files of a directory by id, each with its bytes. -/
abbrev Files := List (Nat × Bytes)

namespace Files

def entries (files : Files) : List (FileName × Bytes) := files.map fun file => (fileName file.1, file.2)

/-- Ids strictly ascending, each within 64 bits. -/
structure Numbered (files : Files) : Prop where
  ascending : files.Pairwise fun a b => a.1 < b.1
  small : ∀ file ∈ files, file.1 < 2 ^ 64

theorem Numbered.unique {files : Files} (numbered : files.Numbered) {file other : Nat × Bytes} (member : file ∈ files)
    (member' : other ∈ files) (same : file.1 = other.1) : file = other := by
  have distinct : (files.map (·.1)).Nodup := List.pairwise_map.mpr (numbered.ascending.imp fun less => less.ne)
  exact List.inj_on_of_nodup_map distinct member member' same

/-- Recovery finds the files of the pool in the order of their ids, whatever
the order of the directory entries. -/
theorem Numbered.foundFiles_eq {files : Files} (numbered : files.Numbered) {listed : List (FileName × Bytes)}
    (listing : listed.Perm files.entries) :
    foundFiles listed = files.map fun file => (file.1, fileName file.1, file.2) := by
  have parsed : (files.entries.filterMap fun entry => (parseId entry.1).map fun id => (id, entry.1, entry.2)) =
      files.map fun file => (file.1, fileName file.1, file.2) := by
    rw [entries, List.filterMap_map, ← List.filterMap_eq_map]
    refine List.filterMap_congr fun file member => ?_
    simp [parseId_fileName (numbered.small file member)]
  have sorted : (files.map fun file => (file.1, fileName file.1, file.2)).Pairwise FoundBefore :=
    List.pairwise_map.mpr (numbered.ascending.imp .inl)
  have sameFiles : (foundFiles listed).Perm (files.map fun file => (file.1, fileName file.1, file.2)) :=
    (List.perm_insertionSort _ _).trans (parsed ▸ listing.filterMap _)
  refine sameFiles.eq_of_pairwise ?_ (List.pairwise_insertionSort _ _) sorted
  intro a b inFound inFiles before after
  obtain ⟨file, fileMember, rfl⟩ := List.mem_map.mp inFiles
  obtain ⟨other, otherMember, rfl⟩ := List.mem_map.mp (sameFiles.subset inFound)
  have sameId : other.1 = file.1 := by
    rcases before with less | ⟨same, -⟩
    · rcases after with more | ⟨same, -⟩
      · exact absurd less more.asymm
      · exact same.symm
    · exact same
  rw [numbered.unique otherMember fileMember sameId]

/-- The list of indexes after recovery, newest file at the head. -/
theorem Numbered.recoverState_head {files : Files} (numbered : files.Numbered) {listed : List (FileName × Bytes)}
    (listing : listed.Perm files.entries) :
    (recoverState listed).1 = (files.map fun file => recoverIndex (fileName file.1) file.2).reverse := by
  rw [recoverState_fst, numbered.foundFiles_eq listing, List.map_map]
  rfl

theorem le_maxId {found : List (Nat × FileName × Bytes)} {file : Nat × FileName × Bytes} (member : file ∈ found) :
    file.1 ≤ maxId found := by
  induction found using List.reverseRecOn with
  | nil => cases member
  | append_singleton found last ih =>
    rw [maxId, List.foldl_append]
    rcases List.mem_append.mp member with before | here
    · exact le_max_of_le_left (ih before)
    · rw [List.mem_singleton.mp here]
      exact le_max_right _ _

theorem maxId_lt {found : List (Nat × FileName × Bytes)} {bound : Nat} (positive : 0 < bound)
    (below : ∀ file ∈ found, file.1 < bound) : maxId found < bound := by
  induction found using List.reverseRecOn with
  | nil => exact positive
  | append_singleton found last ih =>
    rw [maxId, List.foldl_append]
    exact max_lt (ih fun file member => below file (List.mem_append_left _ member)) (below last (by simp))

/-- The start id is past every id in the directory, as long as the ids leave room. -/
theorem Numbered.recoverState_startId {files : Files} (numbered : files.Numbered) {listed : List (FileName × Bytes)}
    (listing : listed.Perm files.entries) (room : ∀ file ∈ files, file.1 + 1 < 2 ^ 64) :
    (∀ file ∈ files, file.1 < (recoverState listed).2) ∧ (recoverState listed).2 < 2 ^ 64 := by
  have found := numbered.foundFiles_eq listing
  have small : maxId (foundFiles listed) < 2 ^ 64 - 1 := by
    refine maxId_lt (by decide) fun entry member => ?_
    rw [found] at member
    obtain ⟨file, inFiles, rfl⟩ := List.mem_map.mp member
    have bound := room file inFiles
    simp only
    omega
  have start : (recoverState listed).2 = maxId (foundFiles listed) + 1 := by
    simp only [recoverState]
    omega
  rw [start]
  refine ⟨fun file member => ?_, by omega⟩
  have inFound : (file.1, fileName file.1, file.2) ∈ foundFiles listed := by
    rw [found]
    exact List.mem_map_of_mem member
  have bound := le_maxId inFound
  simp only at bound
  omega

/-- The directory holds exactly these files. -/
def Describes (files : Files) (dir : Directory) : Prop :=
  ∀ name content, dir[name]? = some content ↔ (name, content) ∈ files.entries

theorem mem_entries {files : Files} {name : FileName} {content : Bytes} :
    (name, content) ∈ files.entries ↔ ∃ id, (id, content) ∈ files ∧ name = fileName id := by
  simp only [entries, List.mem_map, Prod.mk.injEq, Prod.exists]
  constructor
  · rintro ⟨id, bytes, member, rfl, rfl⟩
    exact ⟨id, member, rfl⟩
  · rintro ⟨id, member, rfl⟩
    exact ⟨id, content, member, rfl, rfl⟩

theorem mem_entries_fileName {files : Files} {id : Nat} {content : Bytes} :
    (fileName id, content) ∈ files.entries ↔ (id, content) ∈ files := by
  rw [mem_entries]
  constructor
  · rintro ⟨other, member, same⟩
    rwa [fileName_injective same]
  · exact fun member => ⟨id, member, rfl⟩

theorem Describes.empty : Describes [] ∅ := by
  intro name content
  simp [entries]

theorem Describes.getElem? {files : Files} {dir : Directory} (described : files.Describes dir) {id : Nat}
    {content : Bytes} (member : (id, content) ∈ files) : dir[fileName id]? = some content :=
  (described _ _).mpr (mem_entries_fileName.mpr member)

/-- A file created, or given new bytes, takes its place in the description. -/
theorem Describes.update {front old back : Files} {dir dir' : Directory} {id : Nat} {content : Bytes}
    (described : Describes (front ++ old ++ back) dir) (only : ∀ file ∈ old, file.1 = id)
    (fresh : ∀ file ∈ front ++ back, file.1 ≠ id) (others : ∀ name, name ≠ fileName id → dir'[name]? = dir[name]?)
    (here : dir'[fileName id]? = some content) : Describes (front ++ [(id, content)] ++ back) dir' := by
  intro name bytes
  by_cases same : name = fileName id
  · subst same
    rw [here, mem_entries_fileName, Option.some.injEq]
    constructor
    · rintro rfl
      simp
    · intro member
      simp only [List.mem_append, List.mem_singleton, Prod.mk.injEq, true_and] at member
      rcases member with (inFront | new) | inBack
      · exact absurd rfl (fresh _ (List.mem_append_left _ inFront))
      · exact new.symm
      · exact absurd rfl (fresh _ (List.mem_append_right _ inBack))
  · rw [others name same, described, mem_entries, mem_entries]
    refine exists_congr fun other => and_congr_left fun isName => ?_
    have different : other ≠ id := fun equal => same (equal ▸ isName)
    simp only [List.mem_append, List.mem_singleton, Prod.mk.injEq, different, false_and, or_false]
    have notOld : (other, bytes) ∉ old := fun member => different (only _ member)
    simp [notOld]

/-- The listing of a described directory, in any order. -/
theorem Describes.listing {files : Files} {dir : Directory} (described : files.Describes dir)
    (numbered : files.Numbered) {listed : List (FileName × Bytes)} (listing : listed.Perm dir.toList) :
    listed.Perm files.entries := by
  have noRepeats : files.entries.Nodup := by
    refine List.pairwise_map.mpr (numbered.ascending.imp fun less same => less.ne ?_)
    exact fileName_injective (congrArg Prod.fst same)
  refine (List.perm_ext_iff_of_nodup (nodup_listing listing) noRepeats).mpr fun entry => ?_
  rw [← described entry.1 entry.2, mem_listing listing]

end Files

end LSMIO
