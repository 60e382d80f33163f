import LSMIO.FilePool

namespace LSMIO

/-- `std::string::npos`. -/
def npos : Nat := 2 ^ 64 - 1

/-- The last position at or before `i` at which the pattern occurs. -/
def rfindFrom (text pattern : Bytes) : Nat → Nat
  | 0 => if pattern.isPrefixOf text then 0 else npos
  | i + 1 => if pattern.isPrefixOf (text.drop (i + 1)) then i + 1 else rfindFrom text pattern i

def rfind (text pattern : Bytes) : Nat := rfindFrom text pattern text.length

/-- White space of the C locale: blank, and tab to carriage return. -/
def isSpace (b : UInt8) : Bool := b == 32 || (9 ≤ b.toNat && b.toNat ≤ 13)

/-- `std::stoull` in base ten: white space, an optional sign, and the digits
up to the first other byte. No digits and numbers past 64 bits throw; a minus sign negates modulo `2 ^ 64`. -/
def stoull (text : Bytes) : Option Nat :=
  let trimmed := text.dropWhile isSpace
  let negative := trimmed.head? = some 45
  let unsigned := if negative ∨ trimmed.head? = some 43 then trimmed.tail else trimmed
  let digits := unsigned.takeWhile Decimal.isDigit
  if digits = [] ∨ 2 ^ 64 ≤ Decimal.value digits then none
  else some (if negative then (2 ^ 64 - Decimal.value digits) % 2 ^ 64 else Decimal.value digits)

/-- The id `recoverState` reads from a file name: the tests on the name, with
the subtractions of `size_t`, and the middle part of the name. -/
def parseId (filename : FileName) : Option Nat :=
  if (ascii "L0-").isPrefixOf filename ∧ rfind filename (ascii ".sst") = (filename.length + 2 ^ 64 - 4) % 2 ^ 64 then
    stoull ((filename.drop 3).take ((filename.length + 2 ^ 64 - 7) % 2 ^ 64))
  else none

/-- The record loop: a short read of a length or of a key ends it, and the
value is skipped without being read. The fuel bounds the number of records. -/
def recordLoop (content : Bytes) : Nat → Nat → Index Key
  | 0, _ => []
  | fuel + 1, position =>
    if content.length ≤ position then []
    else match content.readU32At position with
      | none => []
      | some keyLen => match content.readAt (position + 4) keyLen with
        | none => []
        | some key => match content.readU32At (position + 4 + keyLen) with
          | none => []
          | some valLen => (key, position) :: recordLoop content fuel (position + 4 + keyLen + 4 + valLen)

def recoverIndex (path : FileName) (content : Bytes) : L0Index :=
  L0Index.build path (recordLoop content content.length 0)

/-- The order of `found_files`: by id, then by path. -/
def FoundBefore (a b : Nat × FileName × Bytes) : Prop := a.1 < b.1 ∨ a.1 = b.1 ∧ compare a.2.1 b.2.1 ≠ .gt

instance : DecidableRel FoundBefore := fun a b =>
  inferInstanceAs (Decidable (a.1 < b.1 ∨ a.1 = b.1 ∧ compare a.2.1 b.2.1 ≠ .gt))

/-- The files whose names carry an id, oldest first. -/
def foundFiles (entries : List (FileName × Bytes)) : List (Nat × FileName × Bytes) :=
  (entries.filterMap fun entry => (parseId entry.1).map fun id => (id, entry.1, entry.2)).insertionSort FoundBefore

def maxId (found : List (Nat × FileName × Bytes)) : Nat := found.foldl (fun sofar file => max sofar file.1) 0

/-- The index list built from the directory entries in any order, newest file
at the head, and the start id of the new file pool. -/
def recoverState (entries : List (FileName × Bytes)) : List L0Index × Nat :=
  let found := foundFiles entries
  (found.foldl (fun head file => recoverIndex file.2.1 file.2.2 :: head) [], (maxId found + 1) % 2 ^ 64)

end LSMIO
