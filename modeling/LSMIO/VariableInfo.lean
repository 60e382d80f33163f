import LSMIO.Plugin

namespace LSMIO

theorem stoi_digits (n : Nat) : stoi (Decimal.digits n) = if n < 2 ^ 31 then some (n : Int) else none := by
  obtain ⟨b, tail, digits⟩ := List.exists_cons_of_ne_nil (Decimal.digits_ne_nil n)
  have all := Decimal.digits_isDigit n
  have digit := all b (digits ▸ List.mem_cons_self ..)
  have range : 48 ≤ b.toNat ∧ b.toNat ≤ 57 := by simpa [Decimal.isDigit] using digit
  have noSpace : isSpace b = false := by
    have blank : b ≠ 32 := by
      rintro rfl
      revert range
      decide
    simp only [isSpace, Bool.or_eq_false_iff, beq_eq_false_iff_ne, Bool.and_eq_false_iff, decide_eq_false_iff_not]
    exact ⟨blank, .inr (by omega)⟩
  have trimmed : (Decimal.digits n).dropWhile isSpace = Decimal.digits n := by
    rw [digits, List.dropWhile_cons_of_neg (by simp [noSpace])]
  have noSign : ∀ s : UInt8, s.toNat < 48 → (Decimal.digits n).head? ≠ some s := by
    rintro s small same
    rw [digits] at same
    cases same
    omega
  have whole : (Decimal.digits n).takeWhile Decimal.isDigit = Decimal.digits n := List.takeWhile_eq_self_iff.mpr all
  simp only [stoi, trimmed, noSign 45 (by decide), noSign 43 (by decide), or_self, if_false, whole,
    Decimal.value_digits, Decimal.digits_ne_nil, false_or]
  by_cases small : n < 2 ^ 31
  · have inside : ¬ ((n : Int) < -2 ^ 31 ∨ 2 ^ 31 ≤ (n : Int)) := by omega
    rw [if_neg inside, if_pos small]
  · have outside : (n : Int) < -2 ^ 31 ∨ 2 ^ 31 ≤ (n : Int) := by omega
    rw [if_pos outside, if_neg small]

namespace LsmioPlugin

variable {opening closing : UInt8}

theorem mapM_stoi_digits (dims : Dims) :
    (dims.map fun d => Decimal.digits d.toNat).mapM (fun substr => (stoi substr).map UInt64.ofInt) =
      if ∀ d ∈ dims, d.toNat < 2 ^ 31 then some dims else none := by
  induction dims with
  | nil => simp
  | cons d dims ih =>
    rw [List.map_cons, List.mapM_cons, stoi_digits, ih]
    by_cases small : d.toNat < 2 ^ 31
    · have same : UInt64.ofInt (d.toNat : Int) = d := by
        have bound := d.toNat_lt
        rw [UInt64.ofInt, ← UInt64.toNat_inj, UInt64.toNat_ofNat']
        omega
      have rest : (∀ other ∈ d :: dims, other.toNat < 2 ^ 31) ↔ ∀ other ∈ dims, other.toNat < 2 ^ 31 := by
        rw [List.forall_mem_cons, and_iff_right small]
      rw [if_pos small, Option.map_some, Option.bind_eq_bind, Option.bind_some, same, if_congr rest rfl rfl]
      split <;> rfl
    · have none : ¬ ∀ other ∈ d :: dims, other.toNat < 2 ^ 31 := fun all => small (all d (List.mem_cons_self ..))
      rw [if_neg small, if_neg none]
      rfl

/-- Extents are converted back where an `int` has room for them, and throw elsewhere. -/
theorem convertStrToDims_printDims (dims : Dims) : convertStrToDims (printDims opening closing dims) =
    if ∀ d ∈ dims, d.toNat < 2 ^ 31 then some dims else none := by
  have inner : ((printDims opening closing dims).drop 1).take ((printDims opening closing dims).length - 2) =
      [44].intercalate (dims.map fun d => Decimal.digits d.toNat) := by
    simp [printDims]
  cases dims with
  | nil => simp [convertStrToDims, printDims]
  | cons d dims =>
    have long : 2 < (printDims opening closing (d :: dims)).length := by
      have written := List.length_pos_of_ne_nil (Decimal.digits_ne_nil d.toNat)
      cases dims <;> simp [printDims, List.intercalate_cons_cons] <;> omega
    have fresh : ∀ piece ∈ (d :: dims).map fun d => Decimal.digits d.toNat, 44 ∉ piece := by
      intro piece member comma
      obtain ⟨d, -, rfl⟩ := List.mem_map.mp member
      have digit := Decimal.digits_isDigit _ _ comma
      revert digit
      decide
    rw [convertStrToDims, if_pos long, inner, Bytes.fields_intercalate fresh (by simp), mapM_stoi_digits]

theorem mem_printDims {b : UInt8} (other : Decimal.isDigit b = false) (comma : b ≠ 44)
    (outer : b ≠ opening ∧ b ≠ closing) (dims : Dims) : b ∉ printDims opening closing dims := by
  have inner : b ∉ [44].intercalate (dims.map fun d => Decimal.digits d.toNat) := by
    induction dims with
    | nil => simp
    | cons d dims ih =>
      have noDigit : b ∉ Decimal.digits d.toNat := fun member => by
        rw [Decimal.digits_isDigit _ _ member] at other
        cases other
      cases dims with
      | nil => simpa using noDigit
      | cons next dims =>
        rw [List.map_cons, List.map_cons, List.intercalate_cons_cons]
        simp only [List.map_cons] at ih
        simp [noDigit, comma, ih]
  simp [printDims, outer, inner]

theorem readVariableInfo_fields {name type shape start count : Bytes} (first : 59 ∉ name) (second : 59 ∉ type)
    (third : 59 ∉ shape) (fourth : 59 ∉ start) (last : 10 ∉ count) (written : count ≠ []) :
    readVariableInfo (name ++ 59 :: (type ++ 59 :: (shape ++ 59 :: (start ++ 59 :: count)))) = do
      let shape ← convertStrToDims shape
      let start ← convertStrToDims start
      let count ← convertStrToDims count
      return ⟨name, type, shape, start, count⟩ := by
  unfold readVariableInfo
  simp only [StringStream.getline_delimited first, StringStream.getline_delimited second,
    StringStream.getline_delimited third,
    StringStream.getline_delimited fourth, StringStream.getline_last last written, Option.getD_some]

/-- A record is read back, or one of its extents throws. -/
theorem readVariableInfo_writeVariableInfo (outer : opening ≠ 59 ∧ opening ≠ 10) (outer' : closing ≠ 59 ∧ closing ≠ 10)
    {info : VariableInfo} (plain : 59 ∉ info.name) (known : 59 ∉ info.type) :
    readVariableInfo (writeVariableInfo opening closing info) =
      if ∀ d ∈ info.shape ++ info.start ++ info.count, d.toNat < 2 ^ 31 then some info else none := by
  have delimited : ∀ dims, 59 ∉ printDims opening closing dims :=
    mem_printDims (by decide) (by decide) ⟨outer.1.symm, outer'.1.symm⟩
  have oneLine : 10 ∉ printDims opening closing info.count :=
    mem_printDims (by decide) (by decide) ⟨outer.2.symm, outer'.2.symm⟩ _
  have text : writeVariableInfo opening closing info = info.name ++ 59 :: (info.type ++ 59 ::
      (printDims opening closing info.shape ++ 59 :: (printDims opening closing info.start ++ 59 ::
        printDims opening closing info.count))) := by
    simp [writeVariableInfo, ascii]
  rw [text, readVariableInfo_fields plain known (delimited _) (delimited _) oneLine (by simp [printDims]),
    convertStrToDims_printDims, convertStrToDims_printDims, convertStrToDims_printDims]
  simp only [List.forall_mem_append]
  split_ifs <;> first | rfl | (exfalso; tauto)

/-- The name that is read has no semicolon. -/
theorem fresh_name_of_read {value : Bytes} {info : VariableInfo} (read : readVariableInfo value = some info) :
    59 ∉ info.name := by
  unfold readVariableInfo at read
  simp only [Option.bind_eq_bind, Option.bind_eq_some_iff, Option.pure_def, Option.some.injEq] at read
  obtain ⟨_, -, _, -, _, -, rfl⟩ := read
  cases first : ((StringStream.ofText value).getline 59).2 with
  | none => simp
  | some line => exact StringStream.fresh_of_getline first

/-- The record of a variable is read back exactly when its name has no semicolon and an `int` has room for its
extents. -/
theorem variableInfo_restored_iff {opening closing : UInt8} (outer : opening ≠ 59 ∧ opening ≠ 10)
    (outer' : closing ≠ 59 ∧ closing ≠ 10) {info : VariableInfo} (known : 59 ∉ info.type) :
    readVariableInfo (writeVariableInfo opening closing info) = some info ↔
      59 ∉ info.name ∧ ∀ d ∈ info.shape ++ info.start ++ info.count, d.toNat < 2 ^ 31 := by
  constructor
  · intro read
    have plain := fresh_name_of_read read
    refine ⟨plain, ?_⟩
    by_contra large
    rw [readVariableInfo_writeVariableInfo outer outer' plain known, if_neg large] at read
    cases read
  · rintro ⟨plain, small⟩
    rw [readVariableInfo_writeVariableInfo outer outer' plain known, if_pos small]

theorem variableInfo_restored_matrix :
    readVariableInfo (writeVariableInfo 123 125 ⟨ascii "a/b\n", ascii "double", [4, 100], [0, 0], []⟩) =
      some ⟨ascii "a/b\n", ascii "double", [4, 100], [0, 0], []⟩ :=
  (variableInfo_restored_iff (by decide) (by decide) (by decide +kernel)).mpr ⟨by decide +kernel, by simp⟩

/-- The extent that ADIOS keeps for a joined dimension is written, and throws when it is read. -/
theorem not_variableInfo_restored : ¬ ∀ (opening closing : UInt8) (info : VariableInfo),
    opening ≠ 59 ∧ opening ≠ 10 → closing ≠ 59 ∧ closing ≠ 10 → 59 ∉ info.type →
      readVariableInfo (writeVariableInfo opening closing info) = some info := by
  intro always
  have read := always 123 125 ⟨[118], [], [18446744073709551614], [], []⟩ (by decide) (by decide) (by simp)
  rw [readVariableInfo_writeVariableInfo (by decide) (by decide) (by simp) (by simp), if_neg (by simp)] at read
  cases read

end LsmioPlugin

end LSMIO
