import Mathlib

/-! The split of a communicator: processes with one color form a group, and within it they are
numbered by their keys, those with equal keys by their ranks. -/

namespace CommSplit

variable (color key : Nat → Nat)

/-- The process `q` is in the group of `r`, and in front of it. -/
def Before (r q : Nat) : Prop := color q = color r ∧ (key q < key r ∨ key q = key r ∧ q < r)

instance (r : Nat) : DecidablePred (Before color key r) := fun q =>
  inferInstanceAs (Decidable (color q = color r ∧ (key q < key r ∨ key q = key r ∧ q < r)))

/-- The rank of a process in its group, of `size` processes in all. -/
def rank (size r : Nat) : Nat := Nat.count (Before color key r) size

/-- The size of the group of a process. -/
def groupSize (size r : Nat) : Nat := Nat.count (fun q => color q = color r) size

/-- The process with rank 0 in the group. -/
def root (size r : Nat) : Nat := ((List.range size).find? fun q => color q = color r ∧ rank color key size q = 0).getD r

variable {color key} {size r r' : Nat}

/-- With keys in the order of the ranks, a group is numbered in that order. -/
theorem rank_eq (ordered : Monotone key) (member : r < size) :
    rank color key size r = Nat.count (fun q => color q = color r) r := by
  have before : ∀ q, Before color key r q ↔ color q = color r ∧ q < r := by
    intro q
    refine and_congr_right fun _ => ⟨?_, fun less => ?_⟩
    · rintro (less | ⟨-, less⟩)
      · exact ordered.reflect_lt less
      · exact less
    · rcases (ordered less.le).lt_or_eq with less' | same
      · exact .inl less'
      · exact .inr ⟨same, less⟩
  simp only [rank, Nat.count_eq_card_filter_range, before]
  congr 1
  ext q
  simp only [Finset.mem_filter, Finset.mem_range]
  constructor
  · rintro ⟨-, same, less⟩
    exact ⟨less, same⟩
  · rintro ⟨less, same⟩
    exact ⟨less.trans member, same, less⟩

/-- The processes of a group have distinct ranks. -/
theorem rank_injective (ordered : Monotone key) (member : r < size) (member' : r' < size) (group : color r = color r')
    (same : rank color key size r = rank color key size r') : r = r' := by
  rw [rank_eq ordered member, rank_eq ordered member', ← group] at same
  exact Nat.count_injective (p := fun q => color q = color r) rfl group.symm same

/-- Rank 0 is that of the lowest process of the group. -/
theorem rank_eq_zero_iff (ordered : Monotone key) (member : r < size) :
    rank color key size r = 0 ↔ ∀ q, color q = color r → r ≤ q := by
  rw [rank_eq ordered member, Nat.count_iff_forall_not]
  constructor
  · intro none q same
    by_contra less
    exact none q (Nat.lt_of_not_le less) same
  · intro least q less same
    exact absurd (least q same) (Nat.not_le.mpr less)

theorem exists_root (ordered : Monotone key) (member : r < size) :
    ∃ q < size, color q = color r ∧ rank color key size q = 0 := by
  have nonempty : ∃ q, color q = color r := ⟨r, rfl⟩
  have least := Nat.find_spec nonempty
  have inside : Nat.find nonempty < size := (Nat.find_min' nonempty rfl).trans_lt member
  refine ⟨Nat.find nonempty, inside, least, (rank_eq_zero_iff ordered inside).mpr fun q same => ?_⟩
  exact Nat.find_min' nonempty (same.trans least)

/-- The root of a group is its lowest process. -/
theorem root_spec (color : Nat → Nat) (ordered : Monotone key) (member : r < size) :
    root color key size r < size ∧ color (root color key size r) = color r ∧
      rank color key size (root color key size r) = 0 ∧
      ∀ q, color q = color r → root color key size r ≤ q := by
  obtain ⟨q, inside, same, first⟩ := exists_root ordered member
  cases found : (List.range size).find? fun q => color q = color r ∧ rank color key size q = 0 with
  | none =>
    have nobody := List.find?_eq_none.mp found q (List.mem_range.mpr inside)
    exact absurd (decide_eq_true ⟨same, first⟩) nobody
  | some q' =>
    have is : root color key size r = q' := by rw [root, found, Option.getD_some]
    have holds := List.find?_some found
    rw [decide_eq_true_eq] at holds
    have inside' := List.mem_range.mp (List.mem_of_find?_eq_some found)
    rw [is]
    exact ⟨inside', holds.1, holds.2, fun q same =>
      (rank_eq_zero_iff ordered inside').mp holds.2 q (same.trans holds.1.symm)⟩

/-- The processes of one group have one root. -/
theorem root_congr (ordered : Monotone key) (member : r < size) (member' : r' < size) (group : color r = color r') :
    root color key size r = root color key size r' := by
  obtain ⟨-, same, -, least⟩ := root_spec color ordered member
  obtain ⟨-, same', -, least'⟩ := root_spec color ordered member'
  exact (least _ (same'.trans group.symm)).antisymm (least' _ (same.trans group))

theorem root_eq_iff (color : Nat → Nat) (ordered : Monotone key) (member : r < size) :
    root color key size r = r ↔ rank color key size r = 0 := by
  obtain ⟨-, same, first, least⟩ := root_spec color ordered member
  constructor
  · intro here
    rw [here] at first
    exact first
  · intro zero
    exact (least r rfl).antisymm ((rank_eq_zero_iff ordered member).mp zero _ same)

/-- A group has one process, or another beside each. -/
theorem one_lt_groupSize_iff (color : Nat → Nat) (member : r < size) :
    1 < groupSize color size r ↔ ∃ q < size, color q = color r ∧ q ≠ r := by
  rw [groupSize, Nat.count_eq_card_filter_range, Finset.one_lt_card]
  constructor
  · rintro ⟨q, inside, q', inside', different⟩
    rw [Finset.mem_filter, Finset.mem_range] at inside inside'
    by_cases here : q = r
    · exact ⟨q', inside'.1, inside'.2, fun same => different (here.trans same.symm)⟩
    · exact ⟨q, inside.1, inside.2, here⟩
  · rintro ⟨q, inside, same, different⟩
    exact ⟨q, by simp [inside, same], r, by simp [member], different⟩

end CommSplit
