import Mathlib

/-! Lexicographic order on lists and prefixes: the lists with a given prefix
are an interval that starts at the prefix itself, so a scan of ascending keys
from the prefix on meets them in one stretch. -/

namespace List

variable {α : Type*} [Ord α] [Std.LawfulEqOrd α]

theorem compare_of_prefix {p list : List α} (extended : p <+: list) : compare list p ≠ .lt := by
  induction p generalizing list with
  | nil => cases list <;> simp
  | cons a p ih =>
    obtain ⟨rest, rfl⟩ := extended
    simpa [Std.ReflOrd.compare_self] using ih (prefix_append p rest)

theorem prefix_of_between [Std.TransOrd α] {p low high : List α} (extended : p <+: high) (above : compare low p ≠ .lt)
    (below : compare low high = .lt) : p <+: low := by
  induction p generalizing low high with
  | nil => exact nil_prefix
  | cons a p ih =>
    obtain ⟨rest, rfl⟩ := extended
    cases low with
    | nil => simp at above
    | cons b low =>
      simp only [cons_append, List.compare_cons_cons] at above below
      cases order : compare b a with
      | lt => simp [order] at above
      | gt => simp [order] at below
      | eq =>
        cases Std.LawfulEqOrd.eq_of_compare order
        simp only [order, Ordering.eq_then] at above below
        exact cons_prefix_cons.mpr ⟨rfl, ih (prefix_append p rest) above below⟩

/-- Behind the keys below a bound there are, in ascending order, exactly the others. -/
theorem mem_dropWhile_below {κ β : Type*} [Ord κ] [Std.TransOrd κ] {entries : List (κ × β)} {key : κ} {entry : κ × β}
    (ascending : entries.Pairwise fun a b => compare a.1 b.1 = .lt) :
    (entry ∈ entries.dropWhile fun entry => compare entry.1 key = .lt) ↔
      entry ∈ entries ∧ compare entry.1 key ≠ .lt := by
  induction entries with
  | nil => simp
  | cons first rest ih =>
    obtain ⟨below, ascendingRest⟩ := pairwise_cons.mp ascending
    by_cases order : compare first.1 key = .lt
    · rw [dropWhile_cons_of_pos (by simpa using order), ih ascendingRest, mem_cons]
      constructor
      · exact fun found => ⟨.inr found.1, found.2⟩
      · rintro ⟨rfl | later, above⟩
        · exact absurd order above
        · exact ⟨later, above⟩
    · rw [dropWhile_cons_of_neg (by simpa using order), iff_self_and]
      intro member ahead
      rcases mem_cons.mp member with rfl | later
      · exact order ahead
      · exact order (Std.TransCmp.lt_trans (below entry later) ahead)

variable [Std.TransOrd α] [BEq α] [LawfulBEq α] {β : Type*} {entries : List (List α × β)} {p : List α}
  {entry : List α × β}

theorem mem_takeWhile_starting (ascending : entries.Pairwise fun a b => compare a.1 b.1 = .lt)
    (above : ∀ entry ∈ entries, compare entry.1 p ≠ .lt) :
    (entry ∈ entries.takeWhile fun entry => p.isPrefixOf entry.1) ↔ entry ∈ entries ∧ p <+: entry.1 := by
  induction entries with
  | nil => simp
  | cons first rest ih =>
    obtain ⟨below, ascendingRest⟩ := pairwise_cons.mp ascending
    by_cases starts : p <+: first.1
    · rw [takeWhile_cons_of_pos (by simpa using starts), mem_cons, mem_cons,
        ih ascendingRest fun entry member => above entry (mem_cons_of_mem _ member)]
      constructor
      · rintro (rfl | later)
        · exact ⟨.inl rfl, starts⟩
        · exact ⟨.inr later.1, later.2⟩
      · rintro ⟨rfl | later, starts'⟩
        · exact .inl rfl
        · exact .inr ⟨later, starts'⟩
    · rw [takeWhile_cons_of_neg (by simpa using starts)]
      simp only [not_mem_nil, false_iff, not_and]
      intro member starts'
      rcases mem_cons.mp member with rfl | later
      · exact starts starts'
      · exact starts (prefix_of_between starts' (above first (mem_cons_self ..)) (below entry later))

/-- The keys with a prefix are one stretch of an ascending list from the lower
bound of the prefix on, so the scan that stops at the first other key meets all of them. -/
theorem mem_prefixRange (ascending : entries.Pairwise fun a b => compare a.1 b.1 = .lt) :
    (entry ∈ (entries.dropWhile fun entry => compare entry.1 p = .lt).takeWhile fun entry => p.isPrefixOf entry.1) ↔
      entry ∈ entries ∧ p <+: entry.1 := by
  rw [mem_takeWhile_starting (ascending.sublist (dropWhile_sublist _))
      fun entry member => ((mem_dropWhile_below ascending).mp member).2,
    mem_dropWhile_below ascending, and_assoc, and_congr_right_iff, and_iff_right_iff_imp]
  exact fun _ starts => compare_of_prefix starts

end List
