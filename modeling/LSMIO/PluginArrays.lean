import LSMIO.PluginReads

namespace LSMIO

/-- A call that returns and assigns the values, each to its own element. -/
def Reading.Restores {T : Type*} (values : List T) (r : Reading T) : Prop :=
  r = ⟨values.zipIdx.map fun entry => ((entry.2 : Int), entry.1), .returned⟩

open Reading (Restores)

namespace LsmioPlugin

def writeVariableChar : List UInt8 → Bytes := writeVariable fun c => [c]

def writeVariableUnsignedChar : List UInt8 → Bytes := writeVariable fun c => [c]

def writeVariableSignedChar : List Int8 → Bytes := writeVariable fun c => [c.toUInt8]

variable {T : Type*}

variable {cast : Bytes → Option T} {values : List T}

theorem readSelection_map (tokens : List Bytes) (left i : Nat) (size : i + left = tokens.length)
    (same : (tokens.drop i).map cast = values.map some) :
    readSelection cast tokens left i = ⟨(values.zipIdx i).map fun entry => ((entry.2 : Int), entry.1), .returned⟩ := by
  induction left generalizing i values with
  | zero =>
    have none : values = [] := by simpa [show i = tokens.length by omega] using same
    rw [none]
    rfl
  | succ left ih =>
    have inside : i < tokens.length := by omega
    rw [List.drop_eq_getElem_cons inside, List.map_cons] at same
    cases values with
    | nil => simp at same
    | cons value values =>
      obtain ⟨read, rest⟩ := List.cons_eq_cons.mp same
      rw [readSelection, List.getElem?_eq_getElem inside]
      simp only [read, ih (i + 1) (by omega) rest]
      rfl

theorem restores_readSplit {stored : Option Value} (same : (commaSplit (stored.getD [])).map cast = values.map some) :
    Restores values (readSplit cast stored values.length) := by
  have size : (commaSplit (stored.getD [])).length = values.length := by simpa using congrArg List.length same
  exact readSelection_map _ _ 0 (by omega) (by simpa using same)

/-- What is assigned was read from a token. -/
theorem cast_of_mem_assigned {tokens : List Bytes} {left i : Nat} {a : Int × T}
    (member : a ∈ (readSelection cast tokens left i).assigned) : ∃ token ∈ tokens, cast token = some a.2 := by
  induction left generalizing i with
  | zero => cases member
  | succ left ih =>
    rw [readSelection] at member
    split at member
    next => cases member
    next token found =>
      split at member
      next => cases member
      next x read =>
        rcases List.mem_cons.mp member with rfl | later
        · exact ⟨token, List.mem_of_getElem? found, read⟩
        · exact ih later

section Tokens

variable {stringTo : Bytes → Option T} {print : T → Bytes}

theorem readTokens_eq_iff (i : Nat) : readTokens stringTo i (values.map print) =
    ⟨(values.zipIdx i).map fun entry => ((entry.2 : Int), entry.1), .returned⟩ ↔
      (∀ x ∈ values, stringTo (print x) = some x) ∧ ∀ k, i ≤ k → k < i + values.length → Int.bmod k (2 ^ 32) = k := by
  induction values generalizing i with
  | nil =>
    simp only [List.map_nil, readTokens, List.zipIdx_nil, List.not_mem_nil, false_implies, implies_true, true_and,
      true_iff, List.length_nil]
    omega
  | cons value values ih =>
    rw [List.map_cons, readTokens, List.zipIdx_cons, List.map_cons, List.forall_mem_cons, List.length_cons]
    cases read : stringTo (print value) with
    | none => simp
    | some x =>
      have step : (readTokens stringTo (i + 1) (values.map print)).assign (Int.bmod i (2 ^ 32)) x =
          ⟨((i : Int), value) :: ((values.zipIdx (i + 1)).map fun entry => ((entry.2 : Int), entry.1)), .returned⟩ ↔
            Int.bmod i (2 ^ 32) = i ∧ x = value ∧ readTokens stringTo (i + 1) (values.map print) =
              ⟨(values.zipIdx (i + 1)).map fun entry => ((entry.2 : Int), entry.1), .returned⟩ := by
        cases readTokens stringTo (i + 1) (values.map print)
        simp [Reading.assign, and_assoc]
      simp only
      rw [step, ih, Option.some.injEq]
      constructor
      · rintro ⟨here, rfl, rest, counter⟩
        refine ⟨⟨rfl, rest⟩, fun k low high => ?_⟩
        rcases Nat.lt_or_eq_of_le low with later | rfl
        · exact counter k later (by omega)
        · exact here
      · rintro ⟨⟨rfl, rest⟩, counter⟩
        exact ⟨counter i le_rfl (by omega), rfl, rest, fun k low high => counter k (by omega) (by omega)⟩

/-- Numbers come back from their text exactly when each does, and an `int` can count them. -/
theorem restores_readVariable_iff (nonempty : values ≠ []) (plain : ∀ x ∈ values, 44 ∉ print x ∧ print x ≠ []) :
    Restores values (readVariable stringTo (some (writeVariable print values))) ↔
      values.length ≤ 2 ^ 31 ∧ ∀ x ∈ values, stringTo (print x) = some x := by
  have fresh : ∀ piece ∈ values.map print, 44 ∉ piece := by
    intro piece member
    obtain ⟨x, inside, rfl⟩ := List.mem_map.mp member
    exact (plain x inside).1
  have tokens : pieces ([44].intercalate (values.map print)) = values.map print := by
    obtain ⟨x, rest, rfl⟩ := List.exists_cons_of_ne_nil nonempty
    cases rest with
    | nil => simp [pieces, plain]
    | cons y rest =>
      have comma : ¬ 44 ∉ [44].intercalate ((x :: y :: rest).map print) := by
        simp [List.intercalate_cons_cons]
      rw [pieces, if_neg comma]
      refine Bytes.lines_intercalate fresh fun piece last => ?_
      obtain ⟨z, inside, rfl⟩ := List.mem_map.mp (List.mem_of_getLast? last)
      exact (plain z inside).2
  rw [Reading.Restores, readVariable_eq, Option.getD_some, writeVariable_eq, tokens, readTokens_eq_iff, and_comm]
  refine and_congr_left fun _ => ⟨fun counter => ?_, fun small k _ inside => bmod_counter (by omega)⟩
  by_contra large
  have wrapped := counter (2 ^ 31) (Nat.zero_le _) (by omega)
  revert wrapped
  decide

end Tokens

section Bytes

variable (byte : T → UInt8) (ofByte : UInt8 → T) (inverse : ∀ x, ofByte (byte x) = x)
    (inverse' : ∀ b, byte (ofByte b) = b)

include inverse inverse'

/-- With one byte printed for each element and a cast that undoes it, the text loses the commas alone. -/
theorem restores_bytes_iff (values : List T) :
    Restores values (readSplit (fun token => some (ofByte (firstByte token)))
      (some (writeVariable (fun x => [byte x]) values)) values.length) ↔ ∀ x ∈ values, byte x ≠ 44 := by
  rw [writeVariable_eq]
  constructor
  · rintro restored x member same
    obtain ⟨i, inside, rfl⟩ := List.getElem_of_mem member
    have assigned : ((i : Int), values[i]) ∈ (readSplit (fun token => some (ofByte (firstByte token)))
        (some ([44].intercalate (values.map fun x => [byte x]))) values.length).assigned := by
      rw [restored]
      exact List.mem_map.mpr ⟨(values[i], i), List.mem_zipIdx_iff_getElem?.mpr (List.getElem?_eq_getElem inside), rfl⟩
    obtain ⟨token, inTokens, read⟩ := cast_of_mem_assigned assigned
    have fresh : 44 ∉ token := Bytes.fresh_of_mem_lines inTokens
    have first : firstByte token = 44 := by
      rw [← inverse' (firstByte token), Option.some.inj read, same]
    cases token with
    | nil => revert first; decide
    | cons b rest => exact fresh (first ▸ List.mem_cons_self ..)
  · intro fresh
    have tokens : commaSplit ([44].intercalate (values.map fun x => [byte x])) = values.map fun x => [byte x] := by
      refine Bytes.lines_intercalate (fun piece member => ?_) fun piece last => ?_
      · obtain ⟨x, inside, rfl⟩ := List.mem_map.mp member
        simpa using (fresh x inside).symm
      · obtain ⟨x, -, rfl⟩ := List.mem_map.mp (List.mem_of_getLast? last)
        simp
    refine restores_readSplit ?_
    rw [Option.getD_some, tokens, List.map_map]
    exact List.map_congr_left fun x _ => congrArg some (inverse x)

end Bytes

/-- Character arrays come back from their text exactly when no element is a comma. -/
theorem chars_restored_iff (chars : List UInt8) (signed : List Int8) :
    (Restores chars (readVariableChar (some (writeVariableChar chars)) chars.length) ↔ 44 ∉ chars) ∧
      (Restores chars (readVariableUnsignedChar (some (writeVariableUnsignedChar chars)) chars.length) ↔ 44 ∉ chars) ∧
      (Restores signed (readVariableSignedChar (some (writeVariableSignedChar signed)) signed.length) ↔
        44 ∉ signed) := by
  have plain : (∀ c ∈ chars, c ≠ 44) ↔ 44 ∉ chars := by
    rw [← List.forall_mem_ne']
  have plainSigned : (∀ c ∈ signed, c.toUInt8 ≠ 44) ↔ 44 ∉ signed := by
    rw [← List.forall_mem_ne']
    exact forall₂_congr fun c _ => not_congr ⟨fun same => by rw [← c.toInt8_toUInt8, same]; rfl, fun same => same ▸ rfl⟩
  rw [← plain, ← plainSigned]
  exact ⟨restores_bytes_iff id id (fun _ => rfl) (fun _ => rfl) chars,
    restores_bytes_iff id id (fun _ => rfl) (fun _ => rfl) chars,
    restores_bytes_iff Int8.toUInt8 UInt8.toInt8 Int8.toInt8_toUInt8 UInt8.toUInt8_toInt8 signed⟩

/-- A comma is read back as a NUL. -/
theorem not_chars_restored : ¬ ∀ chars : List UInt8, chars ≠ [] →
    Restores chars (readVariableChar (some (writeVariableChar chars)) chars.length) := by
  intro always
  have restored := always [44] (by decide)
  revert restored
  unfold Reading.Restores
  decide +kernel

end LsmioPlugin

end LSMIO
