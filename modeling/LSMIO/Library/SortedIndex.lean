import LSMIO.Library.AppendLog
import LSMIO.Library.PrefixOrder

/-- An index is a list of keys with the offsets of their records. -/
abbrev Index (α : Type*) := List (α × Nat)

namespace Index

section Definitions

variable {α : Type*} [Ord α]

/-- The keys ascend strictly, so that each key occurs once. -/
def Sorted (index : Index α) : Prop := index.Pairwise fun a b => compare a.1 b.1 = .lt

/-- The order of construction: keys ascending, and the larger offset first under one key. -/
def Precedes (a b : α × Nat) : Prop := compare a.1 b.1 = .lt ∨ a.1 = b.1 ∧ b.2 ≤ a.2

def KeysDiffer (a b : α × Nat) : Prop := a.1 ≠ b.1

/-- The part of the index from the first key that is not below the given one. -/
def lowerBound (index : Index α) (key : α) : Index α :=
  index.dropWhile fun entry => compare entry.1 key = .lt

variable [DecidableEq α]

instance : DecidableRel (Precedes (α := α)) := fun a b =>
  inferInstanceAs (Decidable (compare a.1 b.1 = .lt ∨ a.1 = b.1 ∧ b.2 ≤ a.2))

instance : DecidableRel (KeysDiffer (α := α)) := fun a b => inferInstanceAs (Decidable (a.1 ≠ b.1))

/-- Sort, then keep the first entry of each group of equal keys. -/
def sortUnique (entries : Index α) : Index α := (entries.insertionSort Precedes).destutter KeysDiffer

/-- The offset under a key: that of the entry at the lower bound, if its key is the given one. -/
def find (index : Index α) (key : α) : Option Nat :=
  match index.lowerBound key with
  | [] => none
  | entry :: _ => if entry.1 = key then some entry.2 else none

end Definitions

/-- The largest offset logged under a key. -/
def IsLargest {α : Type*} (entries : Index α) (key : α) (offset : Nat) : Prop :=
  (key, offset) ∈ entries ∧ ∀ other, (key, other) ∈ entries → other ≤ offset

section Largest

variable {α : Type*} {first next : α × Nat} {rest : Index α} {key : α} {offset : Nat}

theorem isLargest_cons (foreign : ∀ entry ∈ rest, entry.1 ≠ first.1) :
    IsLargest (first :: rest) key offset ↔ (key, offset) = first ∨ IsLargest rest key offset := by
  constructor
  · rintro ⟨member, largest⟩
    rcases List.mem_cons.mp member with same | later
    · exact .inl same
    · exact .inr ⟨later, fun other member' => largest other (List.mem_cons_of_mem _ member')⟩
  · rintro (here | ⟨member, largest⟩)
    · refine ⟨here ▸ List.mem_cons_self .., fun other member => ?_⟩
      rcases List.mem_cons.mp member with same | later
      · exact (congrArg Prod.snd (same.trans here.symm)).le
      · exact absurd (congrArg Prod.fst here) (foreign (key, other) later)
    · refine ⟨List.mem_cons_of_mem _ member, fun other member' => ?_⟩
      rcases List.mem_cons.mp member' with same | later
      · exact absurd (congrArg Prod.fst same) (foreign (key, offset) member)
      · exact largest other later

/-- A second entry under the same key with no larger offset is never the largest it hides. -/
theorem isLargest_drop_second (same : first.1 = next.1) (lower : next.2 ≤ first.2) :
    IsLargest (first :: next :: rest) key offset ↔ IsLargest (first :: rest) key offset := by
  have hidden : ∀ offset, (key, offset) = next → (key, first.2) = first ∧ offset ≤ first.2 := by
    rintro offset rfl
    exact ⟨Prod.ext same.symm rfl, lower⟩
  constructor
  · rintro ⟨member, largest⟩
    refine ⟨?_, fun other member' => largest other ?_⟩
    · rcases List.mem_cons.mp member with here | later
      · exact here ▸ List.mem_cons_self ..
      · rcases List.mem_cons.mp later with here | later
        · obtain ⟨atFirst, le⟩ := hidden _ here
          have ge := largest first.2 (atFirst ▸ List.mem_cons_self ..)
          rw [le_antisymm le ge, atFirst]
          exact List.mem_cons_self ..
        · exact List.mem_cons_of_mem _ later
    · rcases List.mem_cons.mp member' with here | later
      · exact here ▸ List.mem_cons_self ..
      · exact List.mem_cons_of_mem _ (List.mem_cons_of_mem _ later)
  · rintro ⟨member, largest⟩
    refine ⟨?_, fun other member' => ?_⟩
    · rcases List.mem_cons.mp member with here | later
      · exact here ▸ List.mem_cons_self ..
      · exact List.mem_cons_of_mem _ (List.mem_cons_of_mem _ later)
    · rcases List.mem_cons.mp member' with here | later
      · exact largest other (here ▸ List.mem_cons_self ..)
      · rcases List.mem_cons.mp later with here | later
        · obtain ⟨atFirst, le⟩ := hidden _ here
          exact le.trans (largest first.2 (atFirst ▸ List.mem_cons_self ..))
        · exact largest other (List.mem_cons_of_mem _ later)

end Largest

theorem Precedes.compare_lt {α : Type*} [Ord α] {a b : α × Nat} (before : Precedes a b)
    (different : a.1 ≠ b.1) : compare a.1 b.1 = .lt :=
  before.resolve_right fun same => different same.1

section Construction

variable {α : Type*} [Ord α] [Std.TransOrd α] [Std.LawfulEqOrd α]

instance : Std.Total (Precedes (α := α)) where
  total a b := by
    cases order : compare a.1 b.1 with
    | lt => exact .inl (.inl order)
    | gt => exact .inr (.inl (Std.OrientedCmp.gt_iff_lt.mp order))
    | eq =>
      have same := Std.LawfulEqOrd.eq_of_compare order
      rcases Nat.le_total b.2 a.2 with lower | lower
      · exact .inl (.inr ⟨same, lower⟩)
      · exact .inr (.inr ⟨same.symm, lower⟩)

instance : IsTrans (α × Nat) Precedes where
  trans a b c := by
    rintro (ab | ⟨ab, le⟩) (bc | ⟨bc, le'⟩)
    · exact .inl (Std.TransCmp.lt_trans ab bc)
    · exact .inl (bc ▸ ab)
    · exact .inl (ab ▸ bc)
    · exact .inr ⟨ab.trans bc, le'.trans le⟩

variable [DecidableEq α]

/-- Dropping repeated keys from an ordered list leaves them strictly
ascending, each with its largest offset. -/
theorem destutter'_ordered {first : α × Nat} {rest : Index α}
    (ordered : (first :: rest).Pairwise Precedes) :
    Sorted (rest.destutter' KeysDiffer first) ∧
      ∀ key offset, (key, offset) ∈ rest.destutter' KeysDiffer first ↔
        IsLargest (first :: rest) key offset := by
  induction rest generalizing first with
  | nil =>
    refine ⟨List.pairwise_singleton _ _, fun key offset => ?_⟩
    rw [isLargest_cons (by simp), List.destutter'_nil, List.mem_singleton]
    simp [IsLargest]
  | cons next rest ih =>
    obtain ⟨ahead, ordered'⟩ := List.pairwise_cons.mp ordered
    obtain ⟨ahead', orderedRest⟩ := List.pairwise_cons.mp ordered'
    by_cases different : KeysDiffer first next
    · obtain ⟨sorted, members⟩ := ih ordered'
      have toNext := (ahead next (List.mem_cons_self ..)).compare_lt different
      have below : ∀ entry ∈ next :: rest, compare first.1 entry.1 = .lt := by
        intro entry member
        rcases List.mem_cons.mp member with rfl | later
        · exact toNext
        · rcases ahead' entry later with order | ⟨same, _⟩
          · exact Std.TransCmp.lt_trans toNext order
          · exact same ▸ toNext
      have foreign : ∀ entry ∈ next :: rest, entry.1 ≠ first.1 := by
        intro entry member same
        have order := below entry member
        simp [same, Std.ReflOrd.compare_self] at order
      rw [List.destutter'_cons_pos _ different]
      refine ⟨List.pairwise_cons.mpr ⟨fun entry member => ?_, sorted⟩, fun key offset => ?_⟩
      · exact below entry ((members entry.1 entry.2).mp member).1
      · rw [isLargest_cons foreign, List.mem_cons, members]
    · have same : first.1 = next.1 := not_not.mp different
      have lower : next.2 ≤ first.2 := by
        rcases ahead next (List.mem_cons_self ..) with order | ⟨_, le⟩
        · simp [same, Std.ReflOrd.compare_self] at order
        · exact le
      have shorter : (first :: rest).Pairwise Precedes :=
        List.pairwise_cons.mpr ⟨fun entry member => ahead entry (List.mem_cons_of_mem _ member), orderedRest⟩
      obtain ⟨sorted, members⟩ := ih shorter
      rw [List.destutter'_cons_neg _ different]
      refine ⟨sorted, fun key offset => ?_⟩
      rw [members, isLargest_drop_second same lower]

theorem sortUnique_spec (entries : Index α) :
    entries.sortUnique.Sorted ∧ ∀ key offset, (key, offset) ∈ entries.sortUnique ↔ entries.IsLargest key offset := by
  have ordered := List.pairwise_insertionSort Precedes entries
  have members : ∀ entry, entry ∈ entries.insertionSort Precedes ↔ entry ∈ entries :=
    fun _ => List.mem_insertionSort _
  simp only [IsLargest, ← members]
  unfold sortUnique
  cases sorted : entries.insertionSort Precedes with
  | nil => simp [Sorted]
  | cons first rest => exact destutter'_ordered (sorted ▸ ordered)

theorem sortUnique_sorted (entries : Index α) : entries.sortUnique.Sorted := (sortUnique_spec entries).1

end Construction

section Search

variable {α : Type*} [Ord α] [Std.TransOrd α]

/-- In a sorted index the lower bound holds exactly the entries that are not below the key. -/
theorem Sorted.mem_lowerBound {index : Index α} (sorted : index.Sorted) {key : α} {entry : α × Nat} :
    entry ∈ index.lowerBound key ↔ entry ∈ index ∧ compare entry.1 key ≠ .lt :=
  List.mem_dropWhile_below sorted

theorem Sorted.lowerBound {α : Type*} [Ord α] {index : Index α} (sorted : index.Sorted) (key : α) :
    (index.lowerBound key).Sorted :=
  List.Pairwise.sublist (List.dropWhile_sublist _) sorted

variable [Std.LawfulEqOrd α] [DecidableEq α]

theorem Sorted.find_eq_some_iff {index : Index α} (sorted : index.Sorted) {key : α} {offset : Nat} :
    index.find key = some offset ↔ (key, offset) ∈ index := by
  have inBound : (key, offset) ∈ index.lowerBound key ↔ (key, offset) ∈ index := by
    rw [sorted.mem_lowerBound, and_iff_left_iff_imp]
    intro _ order
    simp [Std.ReflOrd.compare_self] at order
  have sortedBound := sorted.lowerBound key
  rw [← inBound]
  unfold find
  cases bound : index.lowerBound key with
  | nil => simp
  | cons first rest =>
    rw [bound] at sortedBound
    obtain ⟨below, _⟩ := List.pairwise_cons.mp sortedBound
    have notBelow : compare first.1 key ≠ .lt := (sorted.mem_lowerBound.mp (bound ▸ List.mem_cons_self ..)).2
    by_cases here : first.1 = key
    · simp only [here, if_true, Option.some.injEq, List.mem_cons]
      constructor
      · rintro rfl
        exact .inl (Prod.ext here.symm rfl)
      · rintro (same | later)
        · exact congrArg Prod.snd same.symm
        · have order := below _ later
          simp [here, Std.ReflOrd.compare_self] at order
    · simp only [here, if_false, reduceCtorEq, false_iff, List.mem_cons, not_or]
      refine ⟨fun same => here (congrArg Prod.fst same.symm), fun later => ?_⟩
      exact notBelow (below _ later)

/-- In a log of offsets assigned in ascending order the last offset under a
key is its largest. -/
theorem lastValue_eq_some_iff_isLargest {α : Type*} [DecidableEq α] {entries : Index α}
    (ascending : entries.Pairwise fun a b => a.2 < b.2) {key : α} {offset : Nat} :
    lastValue entries key = some offset ↔ entries.IsLargest key offset := by
  induction entries using List.reverseRecOn with
  | nil => simp [IsLargest]
  | append_singleton entries entry ih =>
    obtain ⟨ascendingFront, _, below⟩ := List.pairwise_append.mp ascending
    rw [lastValue_concat]
    simp only [IsLargest, List.mem_append, List.mem_singleton]
    by_cases here : key = entry.1
    · simp only [here, if_true, Option.some.injEq]
      constructor
      · rintro rfl
        refine ⟨.inr rfl, fun other member => ?_⟩
        rcases member with earlier | same
        · exact (below _ earlier entry (List.mem_singleton_self _)).le
        · exact (congrArg Prod.snd same).le
      · rintro ⟨earlier | same, largest⟩
        · have above := below _ earlier entry (List.mem_singleton_self _)
          have atLast := largest entry.2 (.inr rfl)
          simp only at above
          omega
        · exact (congrArg Prod.snd same).symm
    · have notLast : ∀ other, (key, other) ≠ entry := fun other same => here (congrArg Prod.fst same)
      simp only [here, if_false, notLast, or_false]
      exact ih ascendingFront

/-- Looking a key up in the index built from such a log gives the last
offset logged under the key. -/
theorem find_sortUnique {entries : Index α} (ascending : entries.Pairwise fun a b => a.2 < b.2) (key : α) :
    entries.sortUnique.find key = lastValue entries key := by
  obtain ⟨sorted, members⟩ := sortUnique_spec entries
  refine Option.ext fun offset => ?_
  rw [sorted.find_eq_some_iff, members, lastValue_eq_some_iff_isLargest ascending]

end Search

end Index
