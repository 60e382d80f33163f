import LSMIO.Library.Codec

namespace Bytes

/-- `strchr` on a buffer that need not end in a NUL: the offset of the first
`c`, and nothing when a NUL or the end of the buffer comes before it. -/
def strchr (c : UInt8) : Bytes → Option Nat
  | [] => none
  | b :: rest => if b = c then some 0 else if b = 0 then none else (strchr c rest).map (· + 1)

theorem strchr_eq_some_iff {c : UInt8} {buf : Bytes} {n : Nat} :
    strchr c buf = some n ↔
      ∃ front rest, buf = front ++ c :: rest ∧ front.length = n ∧ c ∉ front ∧ 0 ∉ front := by
  induction buf generalizing n with
  | nil => simp [strchr]
  | cons b buf ih =>
    rw [strchr]
    constructor
    · intro found
      split at found
      next here =>
        cases Option.some.inj found
        exact ⟨[], buf, by simp [here]⟩
      next other =>
        split at found
        next => cases found
        next nonzero =>
          obtain ⟨m, later, rfl⟩ := Option.map_eq_some_iff.mp found
          obtain ⟨front, rest, rfl, length, fresh, clean⟩ := ih.mp later
          refine ⟨b :: front, rest, by simp, by simp [length], ?_, ?_⟩
          · simp [fresh, Ne.symm other]
          · simp [clean, Ne.symm nonzero]
    · rintro ⟨front, rest, whole, length, fresh, clean⟩
      cases front with
      | nil =>
        obtain ⟨rfl, -⟩ := List.cons.inj whole
        simpa using length
      | cons a front =>
        obtain ⟨rfl, tail⟩ := List.cons.inj whole
        have other : b ≠ c := fun same => fresh (by simp [same])
        have nonzero : b ≠ 0 := fun same => clean (by simp [same])
        have later := ih.mpr ⟨front, rest, tail, rfl, fun m => fresh (.tail _ m), fun m => clean (.tail _ m)⟩
        rw [if_neg other, if_neg nonzero, later]
        simpa using length

/-- A field without the separator and without a NUL ends at the separator put after it. -/
theorem strchr_append {c : UInt8} {front : Bytes} (fresh : c ∉ front) (clean : 0 ∉ front) (rest : Bytes) :
    strchr c (front ++ c :: rest) = some front.length :=
  strchr_eq_some_iff.mpr ⟨front, rest, rfl, rfl, fresh, clean⟩

/-- A search for a separator that does occur fails only on a NUL in front of its first occurrence. -/
theorem strchr_isSome_iff {c : UInt8} (front rest : Bytes) :
    (strchr c (front ++ c :: rest)).isSome ↔ 0 ∉ front.takeWhile (· ≠ c) := by
  induction front with
  | nil => simp [strchr]
  | cons b front ih =>
    rw [List.cons_append, strchr]
    by_cases here : b = c
    · simp [here]
    · by_cases zero : b = 0
      · simp [zero, show ¬ (0 : UInt8) = c from zero ▸ here]
      · rw [if_neg here, if_neg zero, Option.isSome_map, ih, List.takeWhile_cons]
        simp [here, Ne.symm zero]

end Bytes
