import Mathlib

/-- The value under a key in a log of pairs to which later writes are
appended: that of the last entry with this key. -/
def lastValue {α β : Type*} [DecidableEq α] (log : List (α × β)) (key : α) : Option β :=
  (log.reverse.find? fun entry => entry.1 = key).map (·.2)

/-- A list whose end is no longer than the second part of a split covers the first part. -/
theorem prefix_of_short_rest {α : Type*} {log rest front back : List α} (same : log ++ rest = front ++ back)
    (short : rest.length ≤ back.length) : front <+: log := by
  have lengths := congrArg List.length same
  simp only [List.length_append] at lengths
  have first : front <+: log ++ rest := same ▸ List.prefix_append front back
  exact List.prefix_of_prefix_length_le first (List.prefix_append log rest) (by omega)

section

variable {α β : Type*} [DecidableEq α]

@[simp] theorem lastValue_nil (key : α) : lastValue ([] : List (α × β)) key = none := rfl

theorem lastValue_append (older newer : List (α × β)) (key : α) :
    lastValue (older ++ newer) key = (lastValue newer key).or (lastValue older key) := by
  simp only [lastValue, List.reverse_append, List.find?_append, Option.map_or]

theorem lastValue_concat (log : List (α × β)) (entry : α × β) (key : α) :
    lastValue (log ++ [entry]) key = if key = entry.1 then some entry.2 else lastValue log key := by
  rw [lastValue_append, lastValue, List.reverse_singleton, List.find?_singleton]
  by_cases here : key = entry.1
  · simp [here]
  · simp [here, Ne.symm here]

/-- The entries of other keys do not matter. -/
theorem lastValue_filter_own (log : List (α × β)) (key : α) :
    lastValue (log.filter fun entry => entry.1 = key) key = lastValue log key := by
  rw [lastValue, lastValue, ← List.filter_reverse, List.find?_filter]
  simp

theorem lastValue_eq_none_iff {log : List (α × β)} {key : α} :
    lastValue log key = none ↔ ∀ value, (key, value) ∉ log := by
  simp only [lastValue, Option.map_eq_none_iff, List.find?_eq_none, List.mem_reverse, decide_eq_true_eq]
  constructor
  · intro absent value member
    exact absent _ member rfl
  · rintro absent ⟨k, value⟩ member rfl
    exact absent value member

theorem mem_of_lastValue {log : List (α × β)} {key : α} {value : β}
    (last : lastValue log key = some value) : (key, value) ∈ log := by
  obtain ⟨⟨k, v⟩, found, same⟩ := Option.map_eq_some_iff.mp last
  have here : k = key := by simpa using List.find?_some found
  have member := List.mem_reverse.mp (List.mem_of_find?_eq_some found)
  rwa [here, show v = value from same] at member

theorem lastValue_ne_none {log : List (α × β)} {key : α} {value : β} (member : (key, value) ∈ log) :
    lastValue log key ≠ none := by
  rw [ne_eq, lastValue_eq_none_iff]
  exact fun absent => absent value member

/-- The values of a log, taken through a function. -/
theorem lastValue_map {γ : Type*} (f : β → γ) (log : List (α × β)) (key : α) :
    lastValue (log.map fun entry => (entry.1, f entry.2)) key = (lastValue log key).map f := by
  induction log using List.reverseRecOn with
  | nil => rfl
  | append_singleton log entry ih =>
    rw [List.map_append, List.map_singleton, lastValue_concat, lastValue_concat, ih]
    by_cases here : key = entry.1 <;> simp [here]

/-- A log between the writes before and those up to now answers for the keys
left alone in between as the writes before do. -/
theorem lastValue_of_between {before log during : List (α × β)} (covers : before <+: log)
    (inOrder : log <+: before ++ during) {key : α} (untouched : ∀ value, (key, value) ∉ during) :
    lastValue log key = lastValue before key := by
  obtain ⟨later, rfl⟩ := covers
  have inDuring : later <+: during := (List.prefix_append_right_inj before).mp inOrder
  have absent : lastValue later key = none :=
    lastValue_eq_none_iff.mpr fun value member => untouched value (inDuring.subset member)
  rw [lastValue_append, absent, Option.none_or]

/-- Leaving out the entries of one key hides that key and no other. -/
theorem lastValue_filter (log : List (α × β)) (hidden key : α) :
    lastValue (log.filter (·.1 ≠ hidden)) key = if key = hidden then none else lastValue log key := by
  induction log using List.reverseRecOn with
  | nil => simp
  | append_singleton log entry ih =>
    rw [List.filter_append, lastValue_append, ih, lastValue_concat]
    by_cases same : entry.1 = hidden
    · subst same
      by_cases here : key = entry.1 <;> simp [here]
    · have kept : [entry].filter (·.1 ≠ hidden) = [entry] := by simp [same]
      have single : lastValue [entry] key = if key = entry.1 then some entry.2 else none :=
        lastValue_concat [] entry key
      rw [kept, single]
      by_cases here : key = entry.1
      · simp [here, same]
      · simp [here]

/-- A log under other names, in which the entries with a property bear the names of one kind. -/
theorem lastValue_renamed {ι γ : Type*} [DecidableEq γ] {log : List ι} {name : ι → α} {key : ι → γ} {value : ι → β}
    {p : ι → Prop} [DecidablePred p] {n : α} {k : γ} (same : ∀ entry ∈ log, name entry = n ↔ p entry ∧ key entry = k) :
    lastValue (log.map fun entry => (name entry, value entry)) n =
      lastValue ((log.filter p).map fun entry => (key entry, value entry)) k := by
  induction log using List.reverseRecOn with
  | nil => rfl
  | append_singleton log entry ih =>
    have before := ih fun other member => same other (List.mem_append_left _ member)
    have last := same entry (by simp)
    rw [List.map_append, List.map_singleton, lastValue_concat, before, List.filter_append, List.map_append,
      lastValue_append]
    by_cases mine : p entry
    · have single : [entry].filter p = [entry] := by simp [mine]
      rw [single, List.map_singleton, ← List.nil_append [(key entry, value entry)], lastValue_concat, lastValue_nil]
      by_cases here : key entry = k
      · simp [here, last.mpr ⟨mine, here⟩]
      · rw [if_neg fun named => here (last.mp named.symm).2, if_neg (Ne.symm here), Option.none_or]
    · have nothing : [entry].filter p = [] := by simp [mine]
      rw [nothing, List.map_nil, lastValue_nil, Option.none_or, if_neg fun named => mine (last.mp named.symm).1]

/-- A log under other names, of which the entries under one name are those that a function picks out. -/
theorem lastValue_filterMap {ι γ δ : Type*} [DecidableEq γ] {log : List ι} {name : ι → α} {value : ι → β}
    {pick : ι → Option (γ × δ)} {f : δ → β} {n : α} {k : γ}
    (same : ∀ entry ∈ log, (name entry = n ∧ ∃ d, pick entry = some (k, d) ∧ value entry = f d) ∨
      name entry ≠ n ∧ ∀ d, pick entry ≠ some (k, d)) :
    lastValue (log.map fun entry => (name entry, value entry)) n = (lastValue (log.filterMap pick) k).map f := by
  induction log using List.reverseRecOn with
  | nil => rfl
  | append_singleton log entry ih =>
    have before := ih fun other member => same other (List.mem_append_left _ member)
    rw [List.map_append, List.map_singleton, lastValue_concat, before, List.filterMap_append, lastValue_append]
    rcases same entry (by simp) with ⟨here, d, picked, stored⟩ | ⟨other, none'⟩
    · have last : lastValue [(k, d)] k = some d := by rw [← List.nil_append [(k, d)], lastValue_concat, if_pos rfl]
      rw [if_pos here.symm, List.filterMap_cons, picked, List.filterMap_nil, last, stored]
      rfl
    · rw [if_neg (Ne.symm other)]
      cases picked : pick entry with
      | none => simp [picked]
      | some pair =>
        have elsewhere : pair.1 ≠ k := fun here => none' pair.2 (by rw [picked, ← here])
        have absent : lastValue [pair] k = none := by
          rw [← List.nil_append [pair], lastValue_concat, if_neg (Ne.symm elsewhere), lastValue_nil]
        rw [List.filterMap_cons, picked, List.filterMap_nil, absent, Option.none_or]

end
