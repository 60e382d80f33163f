import LSMIO.Plugin

namespace LSMIO

namespace Reading

variable {T : Type*}

/-- The elements of the caller's array that are assigned, in order. -/
def indices (r : Reading T) : List Int := r.assigned.map Prod.fst

/-- A call uses tokens that exist, assigns elements of the selection only, and assigns all of them or throws. -/
structure Inside (n : Nat) (r : Reading T) : Prop where
  tokens : r.outcome ≠ .noToken
  bounds : ∀ i ∈ r.indices, 0 ≤ i ∧ i < n
  complete : r.outcome = .returned → ∀ i < n, (i : Int) ∈ r.indices

@[simp] theorem indices_assign (i : Int) (x : T) (r : Reading T) : (r.assign i x).indices = i :: r.indices := rfl

@[simp] theorem outcome_assign (i : Int) (x : T) (r : Reading T) : (r.assign i x).outcome = r.outcome := rfl

end Reading

open Reading (Inside)

namespace LsmioPlugin

variable {T : Type*}

/-- The tokens in front of the first that does not convert. -/
def leading (cast : Bytes → Option T) (tokens : List Bytes) : Nat :=
  (tokens.takeWhile fun token => (cast token).isSome).length

theorem leading_cons_some {cast : Bytes → Option T} {token : Bytes} {x : T} (read : cast token = some x)
    (tokens : List Bytes) :
    leading cast (token :: tokens) = leading cast tokens + 1 := by
  simp [leading, read]

theorem leading_cons_none {cast : Bytes → Option T} {token : Bytes} (bad : cast token = none) (tokens : List Bytes) :
    leading cast (token :: tokens) = 0 := by
  simp [leading, bad]

theorem leading_le (cast : Bytes → Option T) (tokens : List Bytes) : leading cast tokens ≤ tokens.length :=
  (List.takeWhile_sublist _).length_le

theorem leading_eq_length_iff {cast : Bytes → Option T} {tokens : List Bytes} :
    leading cast tokens = tokens.length ↔ ∀ token ∈ tokens, (cast token).isSome := by
  rw [leading, ← List.takeWhile_eq_self_iff]
  exact ⟨(List.takeWhile_prefix _).eq_of_length, congrArg List.length⟩

section Tokens

variable (stringTo : Bytes → Option T)

theorem indices_readTokens (i : Nat) (vals : List Bytes) :
    (readTokens stringTo i vals).indices = (List.range' i (leading stringTo vals)).map fun k : Nat =>
      Int.bmod k (2 ^ 32) := by
  induction vals generalizing i with
  | nil => rfl
  | cons val vals ih =>
    rw [readTokens]
    cases read : stringTo val with
    | none =>
      rw [leading_cons_none read]
      rfl
    | some x =>
      rw [leading_cons_some read, List.range'_succ, List.map_cons]
      simp only [Reading.indices_assign, ih]

theorem outcome_readTokens (i : Nat) (vals : List Bytes) : (readTokens stringTo i vals).outcome =
    if leading stringTo vals = vals.length then .returned else .threw := by
  induction vals generalizing i with
  | nil => rfl
  | cons val vals ih =>
    rw [readTokens]
    cases read : stringTo val with
    | none => simp [leading_cons_none read]
    | some x => simp [leading_cons_some read, ih]

/-- The tokens of `ReadVariable<T>`: a text without a comma is one. -/
def pieces (text : Bytes) : List Bytes := if 44 ∉ text then [text] else Bytes.lines 44 text

theorem readVariable_eq (stored : Option Value) :
    readVariable stringTo stored = readTokens stringTo 0 (pieces (stored.getD [])) := by
  rw [readVariable, pieces]
  split
  · rw [readTokens]
    cases stringTo (stored.getD []) <;> rfl
  · rfl

theorem bmod_counter {k : Nat} (small : k < 2 ^ 31) : Int.bmod k (2 ^ 32) = k := by
  rw [Int.bmod_eq_of_le] <;> omega

/-- The loop over the tokens stays inside exactly when no more tokens convert
than there are elements, and all of them only if there are as many. -/
theorem inside_readTokens_iff {n : Nat} {vals : List Bytes} : Inside n (readTokens stringTo 0 vals) ↔
    leading stringTo vals ≤ n ∧ leading stringTo vals ≤ 2 ^ 31 ∧
      ((∀ val ∈ vals, (stringTo val).isSome) → vals.length = n) := by
  have indices := indices_readTokens stringTo 0 vals
  rw [← List.range_eq_range'] at indices
  have outcome := outcome_readTokens stringTo 0 vals
  rw [← leading_eq_length_iff]
  constructor
  · intro inside
    have bounds : ∀ k < leading stringTo vals, 0 ≤ Int.bmod k (2 ^ 32) ∧ Int.bmod k (2 ^ 32) < n := fun k here =>
      inside.bounds _ (by rw [indices]; exact List.mem_map.mpr ⟨k, List.mem_range.mpr here, rfl⟩)
    have counter : leading stringTo vals ≤ 2 ^ 31 := by
      by_contra past
      have wrapped := (bounds (2 ^ 31) (by omega)).1
      revert wrapped
      decide
    have below : leading stringTo vals ≤ n := by
      by_contra past
      have outside := (bounds n (by omega)).2
      rw [bmod_counter (by omega)] at outside
      exact lt_irrefl _ outside
    refine ⟨below, counter, fun all => ?_⟩
    rw [if_pos all] at outcome
    by_contra short
    have missed := inside.complete outcome (leading stringTo vals) (by omega)
    rw [indices] at missed
    obtain ⟨k, inRange, same⟩ := List.mem_map.mp missed
    have before := List.mem_range.mp inRange
    rw [bmod_counter (by omega)] at same
    omega
  · rintro ⟨below, counter, whole⟩
    have plain : (readTokens stringTo 0 vals).indices = (List.range (leading stringTo vals)).map fun k : Nat =>
      (k : Int) := by
      rw [indices]
      refine List.map_congr_left fun k here => bmod_counter ?_
      have before := List.mem_range.mp here
      omega
    refine ⟨by rw [outcome]; split <;> simp, fun i member => ?_, fun returned i inside => ?_⟩
    · rw [plain] at member
      obtain ⟨k, here, rfl⟩ := List.mem_map.mp member
      have before := List.mem_range.mp here
      omega
    · have all : leading stringTo vals = vals.length := by
        by_contra short
        rw [outcome, if_neg short] at returned
        cases returned
      rw [plain]
      exact List.mem_map.mpr ⟨i, List.mem_range.mpr (by rw [all, whole all]; exact inside), rfl⟩

end Tokens

section Selection

variable (cast : Bytes → Option T) (tokens : List Bytes)

/-- How far the loop over the selection comes in what is left of the tokens. -/
theorem readSelection_spec (left i : Nat) (here : i ≤ tokens.length) :
    (readSelection cast tokens left i).indices =
        (List.range' i (min left (leading cast (tokens.drop i)))).map (fun k : Nat => (k : Int)) ∧
      (readSelection cast tokens left i).outcome =
        if left ≤ leading cast (tokens.drop i) then .returned
        else if leading cast (tokens.drop i) < (tokens.drop i).length then .threw else .noToken := by
  induction left generalizing i with
  | zero => simp [readSelection, Reading.indices]
  | succ left ih =>
    rw [readSelection]
    rcases Nat.lt_or_eq_of_le here with inside | rfl
    · have next := ih (i + 1) inside
      rw [List.getElem?_eq_getElem inside, List.drop_eq_getElem_cons inside]
      cases read : cast tokens[i] with
      | none =>
        rw [leading_cons_none read]
        simp [Reading.indices, read, inside]
      | some x =>
        rw [leading_cons_some read]
        simp only [read, Reading.indices_assign, Reading.outcome_assign, next, Nat.succ_min_succ, List.range'_succ,
          List.map_cons, Nat.succ_le_succ_iff, List.length_cons, Nat.succ_lt_succ_iff, true_and]
    · simp [leading, Reading.indices]

/-- The loop over the selection stays inside exactly when there is a token for
each element, or one that stops the loop before the tokens end. -/
theorem inside_readSelection_iff {n : Nat} : Inside n (readSelection cast tokens n 0) ↔
    n ≤ tokens.length ∨ ∃ token ∈ tokens, cast token = none := by
  obtain ⟨indices, outcome⟩ := readSelection_spec cast tokens n 0 (Nat.zero_le _)
  rw [List.drop_zero] at indices outcome
  rw [← List.range_eq_range'] at indices
  have bound := leading_le cast tokens
  have stops : (∃ token ∈ tokens, cast token = none) ↔ leading cast tokens < tokens.length := by
    rw [Nat.lt_iff_le_and_ne, and_iff_right bound, ne_eq, leading_eq_length_iff]
    simp
  have plain : ∀ i ∈ (readSelection cast tokens n 0).indices, 0 ≤ i ∧ i < n := by
    intro i member
    rw [indices] at member
    obtain ⟨k, inRange, rfl⟩ := List.mem_map.mp member
    have before := List.mem_range.mp inRange
    omega
  rw [stops]
  constructor
  · intro inside
    by_contra short
    have noToken := inside.tokens
    rw [outcome, if_neg (by omega), if_neg (by omega)] at noToken
    exact noToken rfl
  · intro enough
    refine ⟨?_, plain, fun returned i below => ?_⟩
    · rw [outcome]
      split_ifs
      · simp
      · simp
      · omega
    · have all : n ≤ leading cast tokens := by
        by_contra short
        rw [outcome, if_neg short] at returned
        split_ifs at returned
      rw [indices, Nat.min_eq_left all]
      exact List.mem_map.mpr ⟨i, List.mem_range.mpr below, rfl⟩

theorem inside_readSplit_iff {n : Nat} (stored : Option Value) : Inside n (readSplit cast stored n) ↔
    n ≤ (commaSplit (stored.getD [])).length ∨ ∃ token ∈ commaSplit (stored.getD []), cast token = none :=
  inside_readSelection_iff cast _

end Selection

/-- `ReadVariable<T>` stays inside the selection exactly when at most as many tokens as it has elements, and as
an `int` counts, convert in front of the first that does not, and all convert only if they
are as many as the elements; the others exactly when the text has a token
for each element, or one that `stoi` refuses. -/
theorem reads_inside_iff {T : Type*} (stringTo : Bytes → Option T) {L : Type*} (strtold : Bytes → L)
    (stored : Option Value) (n : Nat) :
    (Inside n (readVariable stringTo stored) ↔ leading stringTo (pieces (stored.getD [])) ≤ n ∧
        leading stringTo (pieces (stored.getD [])) ≤ 2 ^ 31 ∧
        ((∀ val ∈ pieces (stored.getD []), (stringTo val).isSome) → (pieces (stored.getD [])).length = n)) ∧
      (Inside n (readVariableChar stored n) ↔ n ≤ (commaSplit (stored.getD [])).length) ∧
      (Inside n (readVariableUnsignedChar stored n) ↔ n ≤ (commaSplit (stored.getD [])).length) ∧
      (Inside n (readVariableSignedChar stored n) ↔ n ≤ (commaSplit (stored.getD [])).length) ∧
      (Inside n (readVariableShort stored n) ↔ n ≤ (commaSplit (stored.getD [])).length ∨
        ∃ token ∈ commaSplit (stored.getD []), stoi token = none) ∧
      (Inside n (readVariableUnsignedShort stored n) ↔ n ≤ (commaSplit (stored.getD [])).length ∨
        ∃ token ∈ commaSplit (stored.getD []), stoi token = none) ∧
      (Inside n (readVariableLongDouble strtold stored n) ↔ n ≤ (commaSplit (stored.getD [])).length) := by
  rw [readVariable_eq, inside_readTokens_iff]
  simp only [readVariableChar, readVariableUnsignedChar, readVariableSignedChar, readVariableShort,
    readVariableUnsignedShort, readVariableLongDouble, inside_readSplit_iff, Option.map_eq_none_iff, reduceCtorEq,
    and_false, exists_false, or_false, and_self]

/-- A selection of one element of two is read past its end, and what was never stored is read past the last token. -/
theorem not_reads_inside : ¬ ∀ (stored : Option Value) (n : Nat), 0 < n →
    Inside n (readVariable stoi stored) ∧ Inside n (readVariableChar stored n) := by
  intro always
  have outside := (always (some (ascii "1,2")) 1 (by decide)).1.bounds 1 (by decide +kernel)
  exact absurd outside.2 (by decide)

end LsmioPlugin

end LSMIO
