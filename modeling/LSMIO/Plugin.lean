import LSMIO.Library.StringStream
import LSMIO.Recovery
import Mathlib.Data.List.Basic

namespace LSMIO

/-- `std::stoi` in base ten: white space, an optional sign, and the digits up
to the first other byte. No digits and numbers outside of `int` throw. -/
def stoi (text : Bytes) : Option Int :=
  let trimmed := text.dropWhile isSpace
  let negative := trimmed.head? = some 45
  let unsigned := if negative ∨ trimmed.head? = some 43 then trimmed.tail else trimmed
  let digits := unsigned.takeWhile Decimal.isDigit
  let number : Int := if negative then -Decimal.value digits else Decimal.value digits
  if digits = [] ∨ number < -2 ^ 31 ∨ 2 ^ 31 ≤ number then none else some number

def commaSplit (str : Bytes) : List Bytes := Bytes.lines 44 str

/-- The extents of a variable, as `size_t` holds them. -/
abbrev Dims := List UInt64

/-- The parts of a variable that its record in the metadata has. -/
structure VariableInfo where
  name : Bytes
  type : Bytes
  shape : Dims
  start : Dims
  count : Dims
  deriving DecidableEq

/-- How a call of `ReadVariable` ends: by returning, with an exception, or at a token that does not exist. -/
inductive Outcome
  | returned
  | threw
  | noToken
  deriving DecidableEq

/-- What a call of `ReadVariable` does to the caller's array, in order, and how it ends. -/
structure Reading (T : Type*) where
  assigned : List (Int × T)
  outcome : Outcome
  deriving DecidableEq

/-- An element is assigned in front of the rest of the call. -/
def Reading.assign {T : Type*} (i : Int) (x : T) (rest : Reading T) : Reading T :=
  ⟨(i, x) :: rest.assigned, rest.outcome⟩

namespace LsmioPlugin

section Dimensions

variable (opening closing : UInt8)

/-- How the library prints extents, between two characters of its own. -/
def printDims (dims : Dims) : Bytes :=
  opening :: [44].intercalate (dims.map fun d => Decimal.digits d.toNat) ++ [closing]

def writeVariableInfo (info : VariableInfo) : Bytes :=
  info.name ++ ascii ";" ++ info.type ++ ascii ";" ++ printDims opening closing info.shape ++ ascii ";" ++
    printDims opening closing info.start ++ ascii ";" ++ printDims opening closing info.count

/-- An `int` is widened to `size_t` modulo `2 ^ 64`. -/
def convertStrToDims (str : Bytes) : Option Dims :=
  if 2 < str.length then
    (Bytes.fields 44 ((str.drop 1).take (str.length - 2))).mapM fun substr => (stoi substr).map UInt64.ofInt
  else some []

/-- The part of `Init` that reads a record. A `getline` that fails leaves its string empty. -/
def readVariableInfo (value : Bytes) : Option VariableInfo := do
  let (sStream, name) := (StringStream.ofText value).getline 59
  let (sStream, typeStr) := sStream.getline 59
  let (sStream, shapeStr) := sStream.getline 59
  let (sStream, startStr) := sStream.getline 59
  let (_, countStr) := sStream.getline 10
  let shape ← convertStrToDims (shapeStr.getD [])
  let start ← convertStrToDims (startStr.getD [])
  let count ← convertStrToDims (countStr.getD [])
  return ⟨name.getD [], typeStr.getD [], shape, start, count⟩

end Dimensions

section Variables

variable {T : Type*}

/-- The text of the selected elements as `operator<<` prints them. -/
def writeVariable (print : T → Bytes) (values : List T) : Bytes :=
  values.zipIdx.flatMap fun entry => print entry.1 ++ if entry.2 < values.length - 1 then ascii "," else []

/-- The loop over the tokens. Its counter is an `int`. -/
def readTokens (stringTo : Bytes → Option T) : Nat → List Bytes → Reading T
  | _, [] => ⟨[], .returned⟩
  | i, val :: vals => match stringTo val with
    | none => ⟨[], .threw⟩
    | some x => (readTokens stringTo (i + 1) vals).assign (Int.bmod i (2 ^ 32)) x

/-- `ReadVariable<T>`. The text of a `get` that failed is empty. -/
def readVariable (stringTo : Bytes → Option T) (stored : Option Value) : Reading T :=
  let vals := stored.getD []
  if 44 ∉ vals then
    match stringTo vals with
    | none => ⟨[], .threw⟩
    | some x => ⟨[(0, x)], .returned⟩
  else readTokens stringTo 0 (Bytes.lines 44 vals)

/-- The loop over the selection, which takes one token for each element. -/
def readSelection (cast : Bytes → Option T) (valueArray : List Bytes) : Nat → Nat → Reading T
  | 0, _ => ⟨[], .returned⟩
  | left + 1, i => match valueArray[i]? with
    | none => ⟨[], .noToken⟩
    | some token => match cast token with
      | none => ⟨[], .threw⟩
      | some x => (readSelection cast valueArray left (i + 1)).assign i x

/-- The specializations that split the text first. -/
def readSplit (cast : Bytes → Option T) (stored : Option Value) (selectionSize : Nat) : Reading T :=
  readSelection cast (commaSplit (stored.getD [])) selectionSize 0

end Variables

/-- `s[0]`, the NUL behind its end for an empty string. -/
def firstByte (s : Bytes) : UInt8 := s.headD 0

def readVariableChar : Option Value → Nat → Reading UInt8 := readSplit fun token => some (firstByte token)

def readVariableUnsignedChar : Option Value → Nat → Reading UInt8 := readSplit fun token => some (firstByte token)

def readVariableSignedChar : Option Value → Nat → Reading Int8 := readSplit fun token => some (firstByte token).toInt8

def readVariableShort : Option Value → Nat → Reading Int16 := readSplit fun token => (stoi token).map Int16.ofInt

def readVariableUnsignedShort : Option Value → Nat → Reading UInt16 :=
    readSplit fun token => (stoi token).map UInt16.ofInt

/-- `std::strtold` gives a number for every text. -/
def readVariableLongDouble {T : Type*} (strtold : Bytes → T) : Option Value → Nat → Reading T :=
  readSplit fun token => some (strtold token)

section Writing

variable {T : Type*}

theorem flatMap_zipIdx_from (print : T → Bytes) (values : List T) (start : Nat) :
    ((values.zipIdx start).flatMap fun entry =>
      print entry.1 ++ if entry.2 < start + values.length - 1 then ascii "," else []) = [44].intercalate
      (values.map print) := by
  induction values generalizing start with
  | nil => rfl
  | cons value values ih =>
    have rest := ih (start + 1)
    rw [List.zipIdx_cons, List.flatMap_cons]
    cases values with
    | nil => simp
    | cons next values =>
      have inside : start < start + (value :: next :: values).length - 1 := by simp
      have shift : start + (value :: next :: values).length = start + 1 + (next :: values).length := by
        simp only [List.length_cons]
        omega
      rw [if_pos inside, shift, rest]
      simp only [List.map_cons, List.intercalate_cons_cons]
      simp [ascii]

theorem writeVariable_eq (print : T → Bytes) (values : List T) :
    writeVariable print values = [44].intercalate (values.map print) := by
  have text := flatMap_zipIdx_from print values 0
  rwa [Nat.zero_add] at text

end Writing

end LsmioPlugin

end LSMIO
