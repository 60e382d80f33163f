import Mathlib

/-! Finite maps and sets over an ordered key type: lookups after one update,
with the comparison of keys read as equality. -/

namespace OrderedMap

variable {α β : Type*} [Ord α] [Std.TransOrd α] [Std.LawfulEqOrd α]

theorem getElem?_insert [DecidableEq α] (map : Std.ExtTreeMap α β) (key other : α) (value : β) :
    (map.insert key value)[other]? = if key = other then some value else map[other]? := by
  rw [Std.ExtTreeMap.getElem?_insert]
  simp only [Std.LawfulEqOrd.compare_eq_iff_eq]

theorem getElem?_erase [DecidableEq α] (map : Std.ExtTreeMap α β) (key other : α) :
    (map.erase key)[other]? = if key = other then none else map[other]? := by
  rw [Std.ExtTreeMap.getElem?_erase]
  simp only [Std.LawfulEqOrd.compare_eq_iff_eq]

theorem mem_insert (set : Std.ExtTreeSet α) (key other : α) :
    other ∈ set.insert key ↔ key = other ∨ other ∈ set := by
  rw [Std.ExtTreeSet.mem_insert, Std.LawfulEqOrd.compare_eq_iff_eq]

theorem mem_erase (set : Std.ExtTreeSet α) (key other : α) :
    other ∈ set.erase key ↔ key ≠ other ∧ other ∈ set := by
  rw [Std.ExtTreeSet.mem_erase, ne_eq, ne_eq, Std.LawfulEqOrd.compare_eq_iff_eq]

omit [Std.TransOrd α] in
theorem nodup_of_ascending {l : List (α × β)} (ascending : l.Pairwise fun a b => compare a.1 b.1 = .lt) : l.Nodup :=
  ascending.imp fun less same => by
    rw [same, Std.ReflOrd.compare_self] at less
    cases less

/-- Two lists in strictly ascending key order with the same entries are equal. -/
theorem eq_of_ascending {l r : List (α × β)} (ascending : l.Pairwise fun a b => compare a.1 b.1 = .lt)
    (ascending' : r.Pairwise fun a b => compare a.1 b.1 = .lt) (same : ∀ entry, entry ∈ l ↔ entry ∈ r) : l = r := by
  have perm : l.Perm r :=
    (List.perm_ext_iff_of_nodup (nodup_of_ascending ascending) (nodup_of_ascending ascending')).mpr same
  refine perm.eq_of_pairwise (fun a b _ _ less more => ?_) ascending ascending'
  rw [Std.OrientedCmp.gt_iff_lt.symm] at more
  rw [less] at more
  cases more

omit [Std.LawfulEqOrd α] in
/-- The first entry with a property in ascending key order is the one with the least key among them. -/
theorem find?_of_least {l : List (α × β)} (ascending : l.Pairwise fun a b => compare a.1 b.1 = .lt) {p : α × β → Bool}
    {entry : α × β} (member : entry ∈ l) (here : p entry = true)
    (least : ∀ other ∈ l, p other = true → compare entry.1 other.1 ≠ .gt) : l.find? p = some entry := by
  obtain ⟨first, found⟩ := Option.isSome_iff_exists.mp (List.find?_isSome.mpr ⟨entry, member, here⟩)
  obtain ⟨holds, front, back, rfl, before⟩ := List.find?_eq_some_iff_append.mp found
  rw [found]
  rcases List.mem_append.mp member with inFront | behind
  · have absent := before entry inFront
    rw [here] at absent
    cases absent
  · rcases List.mem_cons.mp behind with rfl | inBack
    · rfl
    · have less := (List.pairwise_cons.mp (List.pairwise_append.mp ascending).2.1).1 entry inBack
      exact absurd (Std.OrientedCmp.gt_iff_lt.mpr less) (least first (by simp) holds)

/-- Two maps that agree on the keys with a property list the same entries for them. -/
theorem filter_toList_congr {s t : Std.ExtTreeMap α β} {p : α → Bool} (same : ∀ key, p key → s[key]? = t[key]?) :
    (s.toList.filter fun entry => p entry.1) = t.toList.filter fun entry => p entry.1 := by
  refine eq_of_ascending (Std.ExtTreeMap.ordered_keys_toList.filter _) (Std.ExtTreeMap.ordered_keys_toList.filter _)
    fun entry => ?_
  obtain ⟨key, value⟩ := entry
  rw [List.mem_filter, List.mem_filter, Std.ExtTreeMap.mem_toList_iff_getElem?_eq_some,
    Std.ExtTreeMap.mem_toList_iff_getElem?_eq_some]
  exact and_congr_left fun held => by rw [same key held]

end OrderedMap
